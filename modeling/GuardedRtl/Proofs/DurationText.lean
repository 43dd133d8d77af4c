import GuardedRtl.Proofs.Numerals
import GuardedRtl.Proofs.Rounding

/-! Lengths of time read back. The text of a length of time is a sequence of terms: a whole number, a
fraction or none, and a unit of which the fraction is a whole number of nanoseconds. Each term is read
with its exact value, and the values add up without passing the limit of the word, also for the most
negative length, whose size no positive length has. -/

namespace GuardedRtl.Sim.Duration

open Text (isDigit digitValue digitsValue)

/-! Digits of a fraction -/

theorem digit_ofNat : ∀ d < 10,
    isDigit (Char.ofNat ('0'.toNat + d)) ∧ digitValue (Char.ofNat ('0'.toNat + d)) = d := by
  decide

theorem length_lastDigits (n places : ℕ) : (lastDigits n places).length = places := by
  induction places generalizing n with
  | zero => rfl
  | succ places ih => simp [lastDigits, ih]

theorem isDigit_lastDigits (n places : ℕ) : ∀ c ∈ lastDigits n places, isDigit c := by
  induction places generalizing n with
  | zero => simp [lastDigits]
  | succ places ih =>
    intro c hc
    rcases List.mem_append.mp hc with hc | hc
    · exact ih _ c hc
    · rw [List.mem_singleton.mp hc]
      exact (digit_ofNat (n % 10) (Nat.mod_lt n (by decide))).1

theorem digitsValue_lastDigits (n places : ℕ) :
    digitsValue (lastDigits n places) = n % 10 ^ places := by
  induction places generalizing n with
  | zero => simp [lastDigits, digitsValue, Nat.mod_one]
  | succ places ih =>
    have hdigit := (digit_ofNat (n % 10) (Nat.mod_lt n (by decide))).2
    rw [lastDigits, Text.digitsValue_append, ih, Text.digitsValue_cons, hdigit, pow_succ', Nat.mod_mul]
    simp [digitsValue]
    ring

/-- Only zeros are dropped. -/
theorem dropTrailingZeros_append (cs : List Char) :
    ∃ k, cs = dropTrailingZeros cs ++ List.replicate k '0' := by
  induction cs with
  | nil => exact ⟨0, rfl⟩
  | cons c cs ih =>
    obtain ⟨k, hk⟩ := ih
    have hdrop : dropTrailingZeros (c :: cs) =
        if c = '0' && (dropTrailingZeros cs).isEmpty then [] else c :: dropTrailingZeros cs := rfl
    rw [hdrop]
    split_ifs with h
    · simp only [Bool.and_eq_true, decide_eq_true_eq, List.isEmpty_iff] at h
      rw [h.2, List.nil_append] at hk
      exact ⟨k + 1, by rw [hk, h.1]; rfl⟩
    · exact ⟨k, by rw [List.cons_append, ← hk]⟩

theorem digitsValue_replicate_zero (k : ℕ) : digitsValue (List.replicate k '0') = 0 := by
  induction k with
  | zero => rfl
  | succ k ih => rw [List.replicate_succ, Text.digitsValue_cons, ih]; simp [digitValue]

/-- The digits of a fraction without the zeros at the end have its value. -/
theorem exists_dropped (n places : ℕ) :
    ∃ k, (dropTrailingZeros (lastDigits n places)).length + k = places ∧
      (∀ c ∈ dropTrailingZeros (lastDigits n places), isDigit c) ∧
      digitsValue (dropTrailingZeros (lastDigits n places)) * 10 ^ k = n % 10 ^ places := by
  obtain ⟨k, hk⟩ := dropTrailingZeros_append (lastDigits n places)
  refine ⟨k, ?_, fun c hc => ?_, ?_⟩
  · have hlength := congrArg List.length hk
    rw [length_lastDigits, List.length_append, List.length_replicate] at hlength
    exact hlength.symm
  · apply isDigit_lastDigits n places
    rw [hk]
    exact List.mem_append_left _ hc
  · have hvalue := congrArg digitsValue hk
    rw [digitsValue_lastDigits, Text.digitsValue_append, List.length_replicate,
      digitsValue_replicate_zero, Nat.add_zero] at hvalue
    exact hvalue.symm

/-- The digits of a fraction of at most nine places are all read. -/
theorem readFraction_digits {ds : List Char} (hdigits : ∀ c ∈ ds, isDigit c) {f j : ℕ}
    (hf : f < 10 ^ j) (hlength : j + ds.length ≤ 9) :
    readFraction f (10 ^ j) ds = (f * 10 ^ ds.length + digitsValue ds, 10 ^ (j + ds.length)) := by
  -- `j` digits have been read; nine are far from both the limit of the word and that of rounding.
  induction ds generalizing f j with
  | nil => simp [readFraction, digitsValue]
  | cons c ds ih =>
    obtain ⟨hc, hds⟩ := List.forall_mem_cons.mp hdigits
    have hdigit := Text.digitValue_lt hc
    rw [List.length_cons] at hlength
    have hscale : 10 ^ (j + 1) ≤ 10 ^ 9 := Nat.pow_le_pow_right (by decide) (by omega)
    have hnext : f * 10 + digitValue c < 10 ^ (j + 1) := by rw [pow_succ]; omega
    have hfirst : ¬ (Nat.pow 2 63 - 1) / 10 < f := by
      have : Nat.pow 2 63 = 2 ^ 63 := rfl
      omega
    have hsecond : ¬ Nat.pow 2 63 < f * 10 + digitValue c := by
      have : Nat.pow 2 63 = 2 ^ 63 := rfl
      omega
    rw [readFraction, if_neg hfirst]
    simp only [if_neg hsecond]
    rw [← pow_succ, roundNat_of_lt (by omega), ih hds hnext (by omega), Text.digitsValue_cons,
      List.length_cons]
    exact Prod.ext (by ring) (by ring)

/-! Terms -/

/-- A run of one class of characters is taken off whole where another class follows. -/
theorem takeWhile_run {p : Char → Bool} {xs rest : List Char} (hxs : ∀ c ∈ xs, p c)
    (hrest : ∀ c ∈ rest.head?, p c = false) :
    (xs ++ rest).takeWhile p = xs ∧ (xs ++ rest).dropWhile p = rest := by
  rw [List.takeWhile_append_of_pos hxs, List.dropWhile_append_of_pos hxs]
  cases rest with
  | nil => simp
  | cons c rest =>
    have hc : p c = false := hrest c rfl
    simp [hc]

theorem unit?_some {u : List Char} {size : ℕ} (h : unit? u = some size) :
    u ≠ [] ∧ (∀ c ∈ u, isUnitChar c) ∧ 0 < size ∧ size ≤ hour := by
  unfold unit? at h
  split at h <;> cases h <;>
    exact ⟨by decide, List.all_eq_true.mp (by decide), by decide, by decide⟩

/-- A number with a unit, as it is written. The fraction is one of whole nanoseconds. -/
structure Term where
  whole : ℕ
  fraction : List Char
  unit : List Char
  size : ℕ
  isDigit_fraction : ∀ c ∈ fraction, isDigit c
  length_fraction : fraction.length ≤ 9
  unit?_unit : unit? unit = some size
  divides : 10 ^ fraction.length ∣ size

namespace Term

variable (t : Term)

def chars : List Char :=
  Nat.toDigits 10 t.whole ++ ((if t.fraction = [] then [] else '.' :: t.fraction) ++ t.unit)

def nanos : ℕ := t.whole * t.size + digitsValue t.fraction * (t.size / 10 ^ t.fraction.length)

/-- What may stand behind a term: nothing, or the next one. -/
def Follows (rest : List Char) : Prop := ∀ c ∈ rest.head?, isUnitChar c = false

theorem exists_digit : ∃ c cs, Nat.toDigits 10 t.whole = c :: cs ∧ isDigit c := by
  have hdigits := Text.all_isDigit_toDigits t.whole
  cases h : Nat.toDigits 10 t.whole with
  | nil => exact absurd h Nat.toDigits_ne_nil
  | cons c cs =>
    rw [h, List.all_cons, Bool.and_eq_true] at hdigits
    exact ⟨c, cs, rfl, hdigits.1⟩

theorem exists_unitChar : ∃ c cs, t.unit = c :: cs ∧ c ≠ '.' ∧ isDigit c = false := by
  obtain ⟨hne, hchars, -⟩ := unit?_some t.unit?_unit
  cases h : t.unit with
  | nil => exact absurd h hne
  | cons c cs =>
    have hc := hchars c (by rw [h]; exact List.mem_cons_self ..)
    simp only [isUnitChar, Bool.not_eq_true', Bool.or_eq_false_iff, beq_eq_false_iff_ne] at hc
    exact ⟨c, cs, rfl, hc⟩

theorem splitFraction_chars (rest : List Char) :
    splitFraction ((if t.fraction = [] then [] else '.' :: t.fraction) ++ (t.unit ++ rest)) =
      (t.fraction, t.unit ++ rest) := by
  obtain ⟨c, cs, hunit, hdot, hdigit⟩ := t.exists_unitChar
  have hhead : ∀ a ∈ (t.unit ++ rest).head?, isDigit a = false := by simp [hunit, hdigit]
  by_cases h : t.fraction = []
  · rw [if_pos h, h, hunit, List.nil_append, List.cons_append, splitFraction]
    exact fun _ heq => hdot (List.cons.inj heq).1
  · obtain ⟨htake, hdrop⟩ := takeWhile_run t.isDigit_fraction hhead
    rw [if_neg h, List.cons_append, splitFraction, htake, hdrop]

theorem splitPart_chars {rest : List Char} (hrest : Follows rest) :
    splitPart (t.chars ++ rest) = ⟨Nat.toDigits 10 t.whole, t.fraction, t.unit, rest⟩ := by
  obtain ⟨c, cs, hunit, -, hdigit⟩ := t.exists_unitChar
  have hhead : ∀ a ∈ ((if t.fraction = [] then [] else '.' :: t.fraction) ++ (t.unit ++ rest)).head?,
      isDigit a = false := by
    by_cases h : t.fraction = []
    · simp [h, hunit, hdigit]
    · simp [h, isDigit]
  obtain ⟨htake, hdrop⟩ :=
    takeWhile_run (List.all_eq_true.mp (Text.all_isDigit_toDigits t.whole)) hhead
  obtain ⟨htake', hdrop'⟩ := takeWhile_run (unit?_some t.unit?_unit).2.1 hrest
  unfold splitPart chars
  simp only [List.append_assoc, htake, hdrop, t.splitFraction_chars, htake', hdrop']

theorem fractionNanos_fraction :
    fractionNanos (digitsValue t.fraction) (10 ^ t.fraction.length) t.size =
      digitsValue t.fraction * (t.size / 10 ^ t.fraction.length) := by
  obtain ⟨-, -, hpos, hle⟩ := unit?_some t.unit?_unit
  obtain ⟨k, hk⟩ := t.divides
  have hsize : k * 10 ^ t.fraction.length = t.size := by rw [hk, Nat.mul_comm]
  have hkpos : 0 < k := Nat.pos_of_ne_zero (by rintro rfl; omega)
  have hlarge : hour < 2 ^ 53 := by decide
  have hexact := fractionNanos_exact hkpos (Text.digitsValue_lt t.isDigit_fraction)
    (by rw [hsize]; omega)
  rw [hsize] at hexact
  rw [hexact, ← hsize, Nat.mul_div_cancel _ (by positivity)]

theorem nanos_part (rest : List Char) (text : String) (h : t.nanos ≤ 2 ^ 63) :
    Part.nanos text ⟨Nat.toDigits 10 t.whole, t.fraction, t.unit, rest⟩ = .ok t.nanos := by
  obtain ⟨hne, -, hpos, -⟩ := unit?_some t.unit?_unit
  have hpow : Nat.pow 2 63 = 2 ^ 63 := rfl
  have hproduct : t.whole * t.size ≤ t.nanos := Nat.le_add_right ..
  have hwhole : t.whole ≤ t.whole * t.size := Nat.le_mul_of_pos_right _ hpos
  have hread := readFraction_digits t.isDigit_fraction (f := 0) (j := 0) (by decide)
    (by simpa using t.length_fraction)
  simp only [pow_zero, Nat.zero_mul, Nat.zero_add] at hread
  unfold Part.nanos
  simp only [Text.digitsValue_toDigits, t.unit?_unit, hread, t.fractionNanos_fraction]
  rw [if_neg (by omega), if_neg (by simp [Nat.toDigits_ne_nil]), if_neg (by simpa using hne),
    if_neg (by omega), if_neg (by rw [hpow, not_lt]; exact h)]
  rfl

/-- One term is read with its value, if the sum stays within the limit. -/
theorem sumParts_chars (text : String) (fuel : ℕ) {rest : List Char} (hrest : Follows rest)
    {sum : UInt64} (h : sum.toNat + t.nanos ≤ 2 ^ 63) :
    ∃ sum', sum'.toNat = sum.toNat + t.nanos ∧
      sumParts text (fuel + 1) (t.chars ++ rest) sum = sumParts text fuel rest sum' := by
  have hsum : (sum + UInt64.ofNat t.nanos).toNat = sum.toNat + t.nanos := by
    rw [UInt64.toNat_add, UInt64.toNat_ofNat']
    omega
  refine ⟨sum + UInt64.ofNat t.nanos, hsum, ?_⟩
  obtain ⟨c, cs, hdigits, hc⟩ := t.exists_digit
  have hsplit := t.splitPart_chars hrest
  obtain ⟨cs', hchars⟩ : ∃ cs', t.chars ++ rest = c :: cs' := by
    unfold chars
    rw [hdigits]
    exact ⟨_, rfl⟩
  rw [hchars] at hsplit ⊢
  rw [sumParts, if_pos (by rw [hc, Bool.or_true])]
  simp only [hsplit, t.nanos_part rest text (by omega)]
  exact if_neg (by rw [hsum]; exact not_lt.mpr h)

theorem two_le_length_chars : 2 ≤ t.chars.length := by
  obtain ⟨c, cs, hdigits, -⟩ := t.exists_digit
  obtain ⟨d, ds, hunit, -⟩ := t.exists_unitChar
  simp only [chars, hdigits, hunit, List.length_append, List.length_cons]
  omega

/-- Each term is a digit and a unit at least. -/
theorem two_mul_length_le (ts : List Term) : 2 * ts.length ≤ (ts.flatMap chars).length := by
  induction ts with
  | nil => simp
  | cons t ts ih =>
    have := t.two_le_length_chars
    rw [List.flatMap_cons, List.length_append, List.length_cons]
    omega

theorem follows_chars (rest : List Char) : Follows (t.chars ++ rest) := by
  obtain ⟨c, cs, hdigits, hc⟩ := t.exists_digit
  simp [Follows, chars, hdigits, isUnitChar, hc]

theorem follows_flatMap (ts : List Term) : Follows (ts.flatMap chars) := by
  cases ts with
  | nil => simp [Follows]
  | cons t ts => exact t.follows_chars _

/-- Terms one behind the other add up. -/
theorem sumParts_flatMap (text : String) {fuel : ℕ} {ts : List Term} (hfuel : ts.length ≤ fuel)
    {sum : UInt64} (h : sum.toNat + (ts.map nanos).sum ≤ 2 ^ 63) :
    ∃ sum', sum'.toNat = sum.toNat + (ts.map nanos).sum ∧
      sumParts text fuel (ts.flatMap chars) sum = .ok sum' := by
  -- Every partial sum is within the limit, since the whole one is.
  induction ts generalizing fuel sum with
  | nil => exact ⟨sum, by simp, by simp [sumParts]⟩
  | cons t ts ih =>
    obtain ⟨fuel, rfl⟩ : ∃ k, fuel = k + 1 := ⟨fuel - 1, by simp at hfuel; omega⟩
    rw [List.map_cons, List.sum_cons] at h ⊢
    have hfirst : sum.toNat + t.nanos ≤ 2 ^ 63 := by omega
    obtain ⟨sum₁, hsum₁, hstep⟩ := t.sumParts_chars text fuel (follows_flatMap ts) hfirst
    have hothers : sum₁.toNat + (ts.map nanos).sum ≤ 2 ^ 63 := by omega
    obtain ⟨sum₂, hsum₂, hrest⟩ := ih (Nat.le_of_succ_le_succ hfuel) hothers
    exact ⟨sum₂, by omega, by rw [List.flatMap_cons, hstep, hrest]⟩

/-! The terms of a length of time -/

/-- A number of units, with no fraction. -/
def ofWhole (n : ℕ) (u : List Char) {size : ℕ} (hunit : unit? u = some size) : Term where
  whole := n
  fraction := []
  unit := u
  size := size
  isDigit_fraction := by simp
  length_fraction := by simp
  unit?_unit := hunit
  divides := by simp

/-- `n` nanoseconds in a unit of ten to the power `places` of them. -/
def ofNanos (n places : ℕ) (u : List Char) (hplaces : places ≤ 9)
    (hunit : unit? u = some (10 ^ places)) : Term where
  whole := n / 10 ^ places
  fraction := dropTrailingZeros (lastDigits n places)
  unit := u
  size := 10 ^ places
  isDigit_fraction := by
    obtain ⟨k, -, hdigits, -⟩ := exists_dropped n places
    exact hdigits
  length_fraction := by
    obtain ⟨k, hlength, -⟩ := exists_dropped n places
    omega
  unit?_unit := hunit
  divides := by
    obtain ⟨k, hlength, -⟩ := exists_dropped n places
    exact pow_dvd_pow 10 (by omega)

section

variable (n : ℕ) {places : ℕ} {u : List Char}

theorem chars_ofWhole {size : ℕ} (hunit : unit? u = some size) :
    (ofWhole n u hunit).chars = (toString n).toList ++ u := by
  have htext : (toString n).toList = Nat.toDigits 10 n := Nat.toList_repr
  rw [htext]
  rfl

theorem nanos_ofWhole {size : ℕ} (hunit : unit? u = some size) :
    (ofWhole n u hunit).nanos = n * size := by
  simp [nanos, ofWhole, digitsValue]

variable (hplaces : places ≤ 9) (hunit : unit? u = some (10 ^ places))

theorem chars_ofNanos : (ofNanos n places u hplaces hunit).chars = fixedPoint n places ++ u := by
  have htext (m : ℕ) : (toString m).toList = Nat.toDigits 10 m := Nat.toList_repr
  unfold fixedPoint
  simp only [htext, List.isEmpty_iff]
  by_cases h : dropTrailingZeros (lastDigits n places) = []
  · simp [chars, ofNanos, h]
  · simp [chars, ofNanos, h]

theorem nanos_ofNanos : (ofNanos n places u hplaces hunit).nanos = n := by
  obtain ⟨k, hlength, -, hvalue⟩ := exists_dropped n places
  generalize hds : dropTrailingZeros (lastDigits n places) = ds at hlength hvalue
  have hscale : 10 ^ places / 10 ^ ds.length = 10 ^ k := by
    rw [← hlength, pow_add, Nat.mul_div_cancel_left _ (by positivity)]
  simp only [nanos, ofNanos, hds, hscale, hvalue]
  exact Nat.div_add_mod' n (10 ^ places)

end

end Term

/-- A text made of terms that add up to `n`. -/
def Written (cs : List Char) (n : ℕ) : Prop :=
  ∃ ts : List Term, ts ≠ [] ∧ cs = ts.flatMap Term.chars ∧ (ts.map Term.nanos).sum = n

theorem written_fixedPoint (n places : ℕ) {u : List Char} (hplaces : places ≤ 9)
    (hunit : unit? u = some (10 ^ places)) : Written (fixedPoint n places ++ u) n := by
  refine ⟨[.ofNanos n places u hplaces hunit], List.cons_ne_nil _ _, ?_, ?_⟩
  · rw [List.flatMap_singleton, Term.chars_ofNanos]
  · rw [List.map_singleton, List.sum_singleton, Term.nanos_ofNanos]

theorem Written.cons {cs : List Char} {n : ℕ} (h : Written cs n) (w : ℕ) {u : Char} {size : ℕ}
    (hunit : unit? [u] = some size) : Written ((toString w).toList ++ u :: cs) (w * size + n) := by
  obtain ⟨ts, -, rfl, rfl⟩ := h
  refine ⟨.ofWhole w [u] hunit :: ts, List.cons_ne_nil _ _, ?_, ?_⟩
  · rw [List.flatMap_cons, Term.chars_ofWhole, List.append_assoc, List.singleton_append]
  · rw [List.map_cons, List.sum_cons, Term.nanos_ofWhole]

theorem written_magnitudeText (n : ℕ) : Written (magnitudeText n) n := by
  have hseconds : Written (fixedPoint (n % minute) 9 ++ ['s']) (n % minute) :=
    written_fixedPoint _ 9 le_rfl rfl
  have hminutes := hseconds.cons (n / minute % 60) (u := 'm') rfl
  have hhours := hminutes.cons (n / hour) (u := 'h') rfl
  unfold magnitudeText
  split_ifs with hzero hmicro hmilli hsecond hminute hhour
  · have htext : ['0', 's'] = fixedPoint 0 9 ++ ['s'] := by decide +kernel
    rw [hzero, htext]
    exact written_fixedPoint 0 9 le_rfl rfl
  · exact written_fixedPoint n 0 (by decide) rfl
  · exact written_fixedPoint n 3 (by decide) rfl
  · exact written_fixedPoint n 6 (by decide) rfl
  · rw [Nat.mod_eq_of_lt hminute] at hseconds ⊢
    exact hseconds
  · have hsum : n / minute % 60 * minute + n % minute = n := by
      simp only [minute, hour] at hhour ⊢
      omega
    rw [hsum] at hminutes
    exact hminutes
  · have hsum : n / hour * hour + (n / minute % 60 * minute + n % minute) = n := by
      simp only [minute, hour]
      omega
    rw [hsum] at hhours
    exact hhours

namespace Written

variable {cs : List Char} {n : ℕ} (h : Written cs n)

include h

/-- A text made of terms reads as what they add up to. -/
theorem sumParts_eq (hn : n ≤ 2 ^ 63) (text : String) :
    ∃ sum, sum.toNat = n ∧ sumParts text cs.length cs 0 = .ok sum := by
  obtain ⟨ts, -, rfl, rfl⟩ := h
  have hfuel : ts.length ≤ (ts.flatMap Term.chars).length := by
    have := Term.two_mul_length_le ts
    omega
  have hlimit : (0 : UInt64).toNat + (ts.map Term.nanos).sum ≤ 2 ^ 63 := by simpa using hn
  simpa using Term.sumParts_flatMap text hfuel hlimit

theorem two_le_length : 2 ≤ cs.length := by
  obtain ⟨ts, hne, rfl, -⟩ := h
  have hpos := List.length_pos_iff.mpr hne
  have := Term.two_mul_length_le ts
  omega

/-- Terms begin with no sign. -/
theorem splitSign_eq : Text.splitSign cs = (false, cs) := by
  obtain ⟨ts, hne, rfl, -⟩ := h
  obtain ⟨t, ts, rfl⟩ := List.exists_cons_of_ne_nil hne
  obtain ⟨c, ds, hdigits, hc⟩ := t.exists_digit
  rw [List.flatMap_cons, Term.chars, hdigits, List.cons_append, List.cons_append]
  exact Text.splitSign_cons _ hc

/-- Behind a sign or none, terms are read as the length of time that they add up to. -/
theorem parse_eq {text : String} {negative : Bool} {d : Duration}
    (hsign : Text.splitSign text.toList = (negative, cs))
    (hvalue : d.nanos.toInt = Text.signed negative n) : parse text = .ok d := by
  have hlow : -2 ^ 63 ≤ d.nanos.toInt := d.nanos.le_toInt
  have hhigh : d.nanos.toInt < 2 ^ 63 := d.nanos.toInt_lt
  have hn : n ≤ 2 ^ 63 := by
    unfold Text.signed at hvalue
    split_ifs at hvalue <;> omega
  have hlength := h.two_le_length
  obtain ⟨sum, rfl, hsum⟩ := h.sumParts_eq hn text
  unfold parse
  simp only [hsign]
  split
  · exact absurd hlength (by decide)
  · exact absurd hlength (by decide)
  · rw [hsum]
    simp only [bind, Except.bind, Text.int64?_eq_some_iff.mpr hvalue]

end Written

/-- The text of a length of time reads back as the same length. -/
theorem text_reads_back (d : Duration) : parse d.text = .ok d := by
  have hwritten := written_magnitudeText d.nanos.toInt.natAbs
  have hsign : d.nanos < 0 ↔ d.nanos.toInt < 0 := by rw [Int64.lt_iff_toInt_lt, Int64.toInt_zero]
  by_cases h : d.nanos < 0
  · have htext : d.text.toList = '-' :: magnitudeText d.nanos.toInt.natAbs := by
      rw [text, if_pos h, String.toList_ofList]
    have hvalue : d.nanos.toInt = Text.signed true d.nanos.toInt.natAbs := by
      rw [hsign] at h
      simp only [Text.signed, if_true]
      omega
    exact hwritten.parse_eq (by rw [htext]; rfl) hvalue
  · have htext : d.text.toList = magnitudeText d.nanos.toInt.natAbs := by
      rw [text, if_neg h, String.toList_ofList]
    have hvalue : d.nanos.toInt = Text.signed false d.nanos.toInt.natAbs := by
      rw [hsign] at h
      simp only [Text.signed, Bool.false_eq_true, if_false]
      omega
    exact hwritten.parse_eq (by rw [htext]; exact hwritten.splitSign_eq) hvalue

/-- The most negative length of time, in all three units. -/
example : (Duration.mk Int64.minValue).text = "-2562047h47m16.854775808s" := by decide +kernel

end GuardedRtl.Sim.Duration
