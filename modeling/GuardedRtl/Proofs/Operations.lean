import GuardedRtl.Proofs.Check
import GuardedRtl.Proofs.Reference

/-! Each operation on words beside the operation on unbounded numbers. Given words that hold exact
operands, it succeeds when the exact result takes at most 64 bits, and then the words hold that
result. -/

namespace GuardedRtl.Rtl

/-- The words of `v` are the number `n`, which fits its width, and the width fits a word. -/
structure Value.Holds (v : Value) (n : Number) : Prop where
  bits : v.bits.toNat = n.value
  width : v.width.toInt = n.width
  fits : n.value < 2 ^ n.width
  narrow : n.width ≤ 64

/-- `x` succeeds exactly under the condition `p`, and then with the number `n`. -/
structure Agrees (x : Except Error Value) (p : Prop) (n : Number) : Prop where
  succeeds : p → ∃ v, x = .ok v ∧ v.Holds n
  needs : ∀ v, x = .ok v → p

theorem Agrees.ok {bits : UInt64} {width : Int64} {x k : ℕ} (hbits : bits.toNat = x)
    (hwidth : width.toInt = k) (hfits : x < 2 ^ k) (hk : k ≤ 64) :
    Agrees (.ok ⟨bits, width⟩) (k ≤ 64) ⟨x, k⟩ :=
  ⟨fun _ => ⟨_, rfl, hbits, hwidth, hfits, hk⟩, fun _ _ => hk⟩

theorem Agrees.error {e : Error} {p : Prop} {n : Number} (h : ¬ p) : Agrees (.error e) p n :=
  ⟨fun hp => absurd hp h, fun v hv => by cases hv⟩

theorem Agrees.of_iff {x : Except Error Value} {p q : Prop} {n : Number} (h : Agrees x p n)
    (hpq : p ↔ q) : Agrees x q n := by
  rwa [← hpq]

theorem Agrees.holds {x : Except Error Value} {p : Prop} {n : Number} (h : Agrees x p n) {v : Value}
    (hv : x = .ok v) : v.Holds n := by
  obtain ⟨u, hu, hn⟩ := h.succeeds (h.needs v hv)
  rw [hv] at hu
  cases hu
  exact hn

/-- A result is passed on when it is there. -/
theorem Agrees.bind {x : Except Error Value} {f : Value → Except Error Value} {p q : Prop}
    {m n : Number} (hx : Agrees x p m) (hf : ∀ v, v.Holds m → Agrees (f v) q n) :
    Agrees (x >>= f) (p ∧ q) n := by
  constructor
  · rintro ⟨hp, hq⟩
    obtain ⟨v, rfl, hv⟩ := hx.succeeds hp
    exact (hf v hv).succeeds hq
  · intro u hu
    obtain ⟨v, hv, hu⟩ := bind_eq_ok.mp hu
    exact ⟨hx.needs v hv, (hf v (hx.holds hv)).needs u hu⟩

/-! Operations -/

theorem widen_agrees {bits : UInt64} {w : Int64} {x k : ℕ} (hw : w.toInt = k) (hfits : x < 2 ^ k)
    (hx : k ≤ 64 → bits.toNat % 2 ^ k = x) : Agrees (widen bits w) (k ≤ 64) ⟨x, k⟩ := by
  unfold widen
  simp only [Int64.lt_iff_toInt_lt, hw, show (64 : Int64).toInt = 64 from rfl]
  split_ifs with h
  · exact .error (by omega)
  · have hk : k ≤ 64 := by omega
    exact .ok ((toNat_and_mask bits hw hk).trans (hx hk)) hw hfits hk

theorem holds_ofBool (b : Bool) : (Value.ofBool b).Holds (.ofBool b) := by
  cases b <;> exact ⟨rfl, rfl, by decide, by decide⟩

theorem Value.Holds.isSet {v : Value} {n : Number} (h : v.Holds n) :
    v.isSet = decide (n.value ≠ 0) := by
  have hz : v.bits = 0 ↔ n.value = 0 := by rw [bits_eq_zero_iff, h.bits]
  rw [Bool.eq_iff_iff]
  simp [Value.isSet, hz]

theorem two_pow_mod_word {a k : ℕ} (hk : k ≤ 64) : a % 2 ^ 64 % 2 ^ k = a % 2 ^ k :=
  Nat.mod_mod_of_dvd a (pow_dvd_pow 2 hk)

theorem lt_two_pow_max_left {a m : ℕ} (n : ℕ) (h : a < 2 ^ m) : a < 2 ^ max m n :=
  h.trans_le (Nat.pow_le_pow_right two_pos (le_max_left m n))

theorem lt_two_pow_max_right {b n : ℕ} (m : ℕ) (h : b < 2 ^ n) : b < 2 ^ max m n :=
  h.trans_le (Nat.pow_le_pow_right two_pos (le_max_right m n))

section

variable {a b : Value} {m n : Number} (ha : a.Holds m) (hb : b.Holds n)

include ha hb

theorem toInt_max_width : (max a.width b.width).toInt = (max m.width n.width : ℕ) := by
  rw [toInt_max, ha.width, hb.width]
  omega

theorem toInt_max_width_succ :
    (max a.width b.width + 1).toInt = (max m.width n.width + 1 : ℕ) := by
  have h := toInt_max_width ha hb
  have := ha.narrow
  have := hb.narrow
  rw [toInt_add] <;> rw [h, Int64.toInt_one] <;> omega

theorem toInt_sum_width : (a.width + b.width).toInt = (m.width + n.width : ℕ) := by
  have := ha.narrow
  have := hb.narrow
  rw [toInt_add] <;> rw [ha.width, hb.width] <;> omega

theorem add_agrees : Agrees (evalBinary .add a b) (max m.width n.width + 1 ≤ 64)
    ⟨m.value + n.value, max m.width n.width + 1⟩ := by
  have hm := lt_two_pow_max_left n.width ha.fits
  have hn := lt_two_pow_max_right m.width hb.fits
  have hfits : m.value + n.value < 2 ^ (max m.width n.width + 1) := by rw [pow_succ]; omega
  refine widen_agrees (toInt_max_width_succ ha hb) hfits fun hk => ?_
  rw [UInt64.toNat_add, ha.bits, hb.bits, two_pow_mod_word hk]
  exact Nat.mod_eq_of_lt hfits

theorem sub_agrees : Agrees (evalBinary .sub a b) (max m.width n.width + 1 ≤ 64)
    ⟨(((m.value : ℤ) - n.value) % 2 ^ (max m.width n.width + 1)).toNat,
      max m.width n.width + 1⟩ := by
  have hw := toInt_max_width_succ ha hb
  set w := max m.width n.width + 1
  have hpos : (0 : ℤ) < 2 ^ w := by positivity
  have hnonneg := Int.emod_nonneg ((m.value : ℤ) - n.value) hpos.ne'
  have hfits : (((m.value : ℤ) - n.value) % 2 ^ w).toNat < 2 ^ w := by
    have := Int.emod_lt_of_pos ((m.value : ℤ) - n.value) hpos
    zify
    omega
  refine widen_agrees hw hfits fun hk => ?_
  have hb64 : n.value ≤ 2 ^ 64 := by
    rw [← hb.bits]
    exact b.bits.toNat_lt.le
  have hwrap : (((2 ^ 64 - n.value + m.value : ℕ) : ℤ)) = (m.value - n.value) + 2 ^ 64 := by
    rw [Nat.cast_add, Nat.cast_sub hb64]
    push_cast
    ring
  have hdvd : (2 : ℤ) ^ w ∣ 2 ^ 64 := pow_dvd_pow 2 hk
  rw [UInt64.toNat_sub, ha.bits, hb.bits, two_pow_mod_word hk]
  apply Int.ofNat_inj.mp
  rw [Int.natCast_emod, hwrap, Int.toNat_of_nonneg hnonneg, Nat.cast_pow, Nat.cast_ofNat,
    Int.add_emod, Int.emod_eq_zero_of_dvd hdvd, add_zero, Int.emod_emod_of_dvd _ (dvd_refl _)]

theorem mul_agrees : Agrees (evalBinary .mul a b) (m.width + n.width ≤ 64)
    ⟨m.value * n.value, m.width + n.width⟩ := by
  have hfits : m.value * n.value < 2 ^ (m.width + n.width) := by
    rw [pow_add]
    exact Nat.mul_lt_mul'' ha.fits hb.fits
  refine widen_agrees (toInt_sum_width ha hb) hfits fun hk => ?_
  rw [UInt64.toNat_mul, ha.bits, hb.bits, two_pow_mod_word hk]
  exact Nat.mod_eq_of_lt hfits

theorem div_agrees : Agrees (evalBinary .div a b) (m.width ≤ 64)
    ⟨if n.value = 0 then 0 else m.value / n.value, m.width⟩ := by
  have hbits : (if b.bits = 0 then 0 else a.bits / b.bits).toNat =
      if n.value = 0 then 0 else m.value / n.value := by
    simp only [bits_eq_zero_iff, hb.bits]
    split_ifs
    · rfl
    · rw [UInt64.toNat_div, ha.bits, hb.bits]
  have hfits : (if n.value = 0 then 0 else m.value / n.value) < 2 ^ m.width := by
    split_ifs
    · positivity
    · exact (Nat.div_le_self _ _).trans_lt ha.fits
  exact .ok hbits ha.width hfits ha.narrow

theorem rem_agrees : Agrees (evalBinary .rem a b) (min m.width n.width ≤ 64)
    ⟨if n.value = 0 then 0 else m.value % n.value, min m.width n.width⟩ := by
  have hbits : (if b.bits = 0 then 0 else a.bits % b.bits).toNat =
      if n.value = 0 then 0 else m.value % n.value := by
    simp only [bits_eq_zero_iff, hb.bits]
    split_ifs
    · rfl
    · rw [UInt64.toNat_mod, ha.bits, hb.bits]
  have hwidth : (min a.width b.width).toInt = (min m.width n.width : ℕ) := by
    rw [toInt_min, ha.width, hb.width]
    omega
  -- a remainder is below the divisor and not above the dividend, so it fits both widths
  have hfits : (if n.value = 0 then 0 else m.value % n.value) < 2 ^ min m.width n.width := by
    split_ifs with h
    · positivity
    · have h1 : m.value % n.value < 2 ^ m.width := (Nat.mod_le _ _).trans_lt ha.fits
      have h2 : m.value % n.value < 2 ^ n.width :=
        (Nat.mod_lt _ (Nat.pos_of_ne_zero h)).trans hb.fits
      rcases min_choice m.width n.width with hw | hw <;> rw [hw] <;> assumption
  exact .ok hbits hwidth hfits ((min_le_left _ _).trans ha.narrow)

theorem and_agrees : Agrees (evalBinary .and a b) (max m.width n.width ≤ 64)
    ⟨m.value &&& n.value, max m.width n.width⟩ := by
  have hbits : (a.bits &&& b.bits).toNat = m.value &&& n.value := by
    rw [UInt64.toNat_and, ha.bits, hb.bits]
  have hfits := Nat.and_lt_two_pow m.value (lt_two_pow_max_right m.width hb.fits)
  exact .ok hbits (toInt_max_width ha hb) hfits (max_le ha.narrow hb.narrow)

theorem or_agrees : Agrees (evalBinary .or a b) (max m.width n.width ≤ 64)
    ⟨m.value ||| n.value, max m.width n.width⟩ := by
  have hbits : (a.bits ||| b.bits).toNat = m.value ||| n.value := by
    rw [UInt64.toNat_or, ha.bits, hb.bits]
  have hfits := Nat.or_lt_two_pow
    (lt_two_pow_max_left n.width ha.fits) (lt_two_pow_max_right m.width hb.fits)
  exact .ok hbits (toInt_max_width ha hb) hfits (max_le ha.narrow hb.narrow)

theorem xor_agrees : Agrees (evalBinary .xor a b) (max m.width n.width ≤ 64)
    ⟨m.value ^^^ n.value, max m.width n.width⟩ := by
  have hbits : (a.bits ^^^ b.bits).toNat = m.value ^^^ n.value := by
    rw [UInt64.toNat_xor, ha.bits, hb.bits]
  have hfits := Nat.xor_lt_two_pow
    (lt_two_pow_max_left n.width ha.fits) (lt_two_pow_max_right m.width hb.fits)
  exact .ok hbits (toInt_max_width ha hb) hfits (max_le ha.narrow hb.narrow)

theorem cat_agrees : Agrees (evalBinary .cat a b) (m.width + n.width ≤ 64)
    ⟨m.value * 2 ^ n.width + n.value, m.width + n.width⟩ := by
  have hw := toInt_sum_width ha hb
  simp only [evalBinary, Int64.lt_iff_toInt_lt, hw, show (64 : Int64).toInt = 64 from rfl]
  split_ifs with h
  · exact .error (by omega)
  · have hk : m.width + n.width ≤ 64 := by omega
    have hcat : m.value * 2 ^ n.width + n.value < 2 ^ (m.width + n.width) := by
      have h1 := Nat.mul_le_mul_right (2 ^ n.width) (Nat.succ_le_of_lt ha.fits)
      have h2 := hb.fits
      rw [Nat.succ_mul] at h1
      rw [pow_add]
      omega
    have hup : (shiftUp a.bits b.width.toUInt64).toNat = m.value * 2 ^ n.width := by
      rw [toNat_shiftUp, ha.bits, toNat_toUInt64 hb.width]
      have h64 := hcat.trans_le (Nat.pow_le_pow_right two_pos hk)
      exact Nat.mod_eq_of_lt ((Nat.le_add_right _ _).trans_lt h64)
    have hbits : (shiftUp a.bits b.width.toUInt64 ||| b.bits).toNat =
        m.value * 2 ^ n.width + n.value := by
      rw [UInt64.toNat_or, hup, hb.bits, ← Nat.shiftLeft_eq,
        ← Nat.shiftLeft_add_eq_or_of_lt hb.fits]
    exact .ok hbits hw hcat hk

theorem evalBinary_agrees {op : BinaryOp} (hop : op.isKnown) :
    Agrees (evalBinary op a b) ((Number.binary op m n).width ≤ 64) (.binary op m n) := by
  cases op with
  | add => exact add_agrees ha hb
  | sub => exact sub_agrees ha hb
  | mul => exact mul_agrees ha hb
  | div => exact div_agrees ha hb
  | rem => exact rem_agrees ha hb
  | and => exact and_agrees ha hb
  | or => exact or_agrees ha hb
  | xor => exact xor_agrees ha hb
  | cat => exact cat_agrees ha hb
  | unknown code => cases hop

theorem evalCompare_agrees {op : CompareOp} (hop : op.isKnown) :
    Agrees (evalCompare op a b) ((Number.compare op m n).width ≤ 64) (.compare op m n) := by
  have ofBool_agrees {p q : Bool} (h : p = q) :
      Agrees (.ok (.ofBool p)) ((Number.ofBool q).width ≤ 64) (.ofBool q) := by
    subst h
    exact ⟨fun _ => ⟨_, rfl, holds_ofBool p⟩, fun _ _ => (holds_ofBool p).narrow⟩
  have heq : a.bits = b.bits ↔ m.value = n.value := by rw [← UInt64.toNat_inj, ha.bits, hb.bits]
  have hlt : a.bits < b.bits ↔ m.value < n.value := by
    rw [UInt64.lt_iff_toNat_lt, ha.bits, hb.bits]
  have hgt : b.bits < a.bits ↔ n.value < m.value := by
    rw [UInt64.lt_iff_toNat_lt, ha.bits, hb.bits]
  have hle : a.bits ≤ b.bits ↔ m.value ≤ n.value := by
    rw [UInt64.le_iff_toNat_le, ha.bits, hb.bits]
  have hge : b.bits ≤ a.bits ↔ n.value ≤ m.value := by
    rw [UInt64.le_iff_toNat_le, ha.bits, hb.bits]
  cases op with
  | eq => exact ofBool_agrees (by rw [Bool.eq_iff_iff]; simp [heq])
  | ne => exact ofBool_agrees (by rw [Bool.eq_iff_iff]; simp [heq])
  | lt => exact ofBool_agrees (by simp [hlt])
  | gt => exact ofBool_agrees (by simp [hgt])
  | le => exact ofBool_agrees (by simp [hle])
  | ge => exact ofBool_agrees (by simp [hge])
  | unknown code => cases hop

theorem mux_agrees {s : Value} {k : Number} (hs : s.Holds k) :
    Agrees (pure ⟨if s.isSet then a.bits else b.bits, max a.width b.width⟩)
      ((Number.mux k m n).width ≤ 64) (.mux k m n) := by
  have hbits : (if s.isSet then a.bits else b.bits).toNat =
      if k.value ≠ 0 then m.value else n.value := by
    simp only [hs.isSet, decide_eq_true_eq]
    split_ifs
    · exact ha.bits
    · exact hb.bits
  have hfits : (if k.value ≠ 0 then m.value else n.value) < 2 ^ max m.width n.width := by
    split_ifs
    · exact lt_two_pow_max_left n.width ha.fits
    · exact lt_two_pow_max_right m.width hb.fits
  exact .ok hbits (toInt_max_width ha hb) hfits (max_le ha.narrow hb.narrow)

theorem shiftLeftBy_agrees : Agrees (evalShiftLeft a b) ((Number.shiftLeftBy m n).width ≤ 64)
    (.shiftLeftBy m n) := by
  unfold evalShiftLeft
  simp only [Int64.le_iff_toInt_le, hb.width, show (7 : Int64).toInt = 7 from rfl]
  have hpos : 1 ≤ 2 ^ n.width := Nat.one_le_two_pow
  split_ifs with h
  · -- already the largest amount of seven bits leaves no room for anything
    have h7 : 2 ^ 7 ≤ 2 ^ n.width := Nat.pow_le_pow_right two_pos (by omega)
    exact .error (by simp only [Number.shiftLeftBy]; omega)
  · have h6 : 2 ^ n.width ≤ 2 ^ 6 := Nat.pow_le_pow_right two_pos (by omega)
    have hup := toNat_shiftUp_one hb.width (by omega)
    have hroom : (shiftUp 1 b.width.toUInt64).toInt64.toInt = (2 ^ n.width : ℕ) := by
      rw [toInt_toInt64 (by omega), hup]
    have := ha.narrow
    have hsum : (a.width + (shiftUp 1 b.width.toUInt64).toInt64).toInt =
        m.width + (2 ^ n.width : ℕ) := by
      rw [toInt_add] <;> rw [ha.width, hroom] <;> omega
    have hw : (a.width + (shiftUp 1 b.width.toUInt64).toInt64 - 1).toInt =
        (m.width + 2 ^ n.width - 1 : ℕ) := by
      rw [toInt_sub] <;> rw [hsum, Int64.toInt_one] <;> omega
    have hfits : m.value * 2 ^ n.value < 2 ^ (m.width + 2 ^ n.width - 1) := by
      have hn := hb.fits
      calc m.value * 2 ^ n.value < 2 ^ m.width * 2 ^ n.value :=
            Nat.mul_lt_mul_of_pos_right ha.fits (Nat.two_pow_pos _)
        _ = 2 ^ (m.width + n.value) := (pow_add 2 m.width n.value).symm
        _ ≤ 2 ^ (m.width + 2 ^ n.width - 1) := Nat.pow_le_pow_right two_pos (by omega)
    refine widen_agrees hw hfits fun hk => ?_
    rw [toNat_shiftUp, ha.bits, hb.bits, two_pow_mod_word hk]
    exact Nat.mod_eq_of_lt hfits

theorem shiftRightBy_agrees :
    Agrees (pure ⟨shiftDown a.bits b.bits, a.width⟩) ((Number.shiftRightBy m n).width ≤ 64)
      (.shiftRightBy m n) := by
  have hbits : (shiftDown a.bits b.bits).toNat = m.value / 2 ^ n.value := by
    rw [toNat_shiftDown, ha.bits, hb.bits]
  exact .ok hbits ha.width ((Nat.div_le_self _ _).trans_lt ha.fits) ha.narrow

end

section

variable {a : Value} {m : Number} (ha : a.Holds m)

include ha

theorem validIf_agrees {v : Value} {k : Number} (hv : v.Holds k) :
    Agrees (pure ⟨if v.isSet then a.bits else 0, a.width⟩) ((Number.validIf k m).width ≤ 64)
      (.validIf k m) := by
  have hbits : (if v.isSet then a.bits else 0).toNat = if k.value ≠ 0 then m.value else 0 := by
    simp only [hv.isSet, decide_eq_true_eq]
    split_ifs
    · exact ha.bits
    · rfl
  have hfits : (if k.value ≠ 0 then m.value else 0) < 2 ^ m.width := by
    split_ifs
    · exact ha.fits
    · positivity
  exact .ok hbits ha.width hfits ha.narrow

theorem not_agrees : Agrees (evalUnary .not a) (m.width ≤ 64)
    ⟨2 ^ m.width - 1 - m.value, m.width⟩ := by
  have hfits := ha.fits
  have hbits : (~~~a.bits &&& mask a.width).toNat = 2 ^ m.width - 1 - m.value := by
    rw [toNat_and_mask _ ha.width ha.narrow, UInt64.toNat_not, ha.bits]
    obtain ⟨q, hq⟩ := pow_dvd_pow 2 ha.narrow
    -- the ones above the width are a multiple of its power of two
    have hq1 : 1 ≤ q := Nat.one_le_iff_ne_zero.mpr fun h => by simp [h] at hq
    have hsplit : UInt64.size - 1 - m.value = 2 ^ m.width * (q - 1) + (2 ^ m.width - 1 - m.value) := by
      have hmul : 2 ^ m.width * (q - 1) + 2 ^ m.width = 2 ^ 64 := by
        rw [← Nat.mul_succ, Nat.succ_eq_add_one, Nat.sub_add_cancel hq1]
        exact hq.symm
      have : UInt64.size = 2 ^ 64 := rfl
      omega
    rw [hsplit, Nat.mul_add_mod]
    exact Nat.mod_eq_of_lt (by omega)
  exact .ok hbits ha.width (by omega) ha.narrow

theorem evalUnary_agrees {op : UnaryOp} (hop : op.isKnown) :
    Agrees (evalUnary op a)
      ((op ≠ .asSInt ∧ op ≠ .toSigned ∧ op ≠ .neg) ∧ (Number.unary op m).width ≤ 64)
      (.unary op m) := by
  cases op with
  | asUInt => exact (Agrees.ok ha.bits ha.width ha.fits ha.narrow).of_iff (by simp [Number.unary])
  | asClock => exact (Agrees.ok ha.bits ha.width ha.fits ha.narrow).of_iff (by simp [Number.unary])
  | not => exact (not_agrees ha).of_iff (by simp [Number.unary])
  | asSInt => exact .error (by simp)
  | toSigned => exact .error (by simp)
  | neg => exact .error (by simp)
  | unknown code => cases hop

theorem pad_agrees {w : Int64} (hw : 0 ≤ w) :
    Agrees (widen a.bits (max a.width w)) ((Number.pad m w.toNatClampNeg).width ≤ 64)
      (.pad m w.toNatClampNeg) := by
  have hwidth : (max a.width w).toInt = (max m.width w.toNatClampNeg : ℕ) := by
    rw [toInt_max, ha.width, Int64.toInt_eq_toNatClampNeg hw]
    omega
  have hfits := lt_two_pow_max_left w.toNatClampNeg ha.fits
  refine widen_agrees hwidth hfits fun _ => ?_
  rw [ha.bits]
  exact Nat.mod_eq_of_lt hfits

theorem shiftLeft_agrees {n : Int64} (hn : 0 ≤ n) (hmodest : n.toInt ≤ 2 ^ 62) :
    Agrees (widen (shiftUp a.bits n.toUInt64) (a.width + n))
      ((Number.shiftLeft m n.toNatClampNeg).width ≤ 64) (.shiftLeft m n.toNatClampNeg) := by
  have hn' := Int64.toInt_eq_toNatClampNeg hn
  have := ha.narrow
  have hwidth : (a.width + n).toInt = (m.width + n.toNatClampNeg : ℕ) := by
    rw [toInt_add] <;> rw [ha.width] <;> omega
  have hfits : m.value * 2 ^ n.toNatClampNeg < 2 ^ (m.width + n.toNatClampNeg) := by
    rw [pow_add]
    exact Nat.mul_lt_mul_of_pos_right ha.fits (Nat.two_pow_pos _)
  refine widen_agrees hwidth hfits fun hk => ?_
  rw [toNat_shiftUp, ha.bits, toNat_toUInt64 hn', two_pow_mod_word hk]
  exact Nat.mod_eq_of_lt hfits

theorem shiftRight_agrees {n : Int64} (hn : 0 ≤ n) :
    Agrees (pure ⟨shiftDown a.bits n.toUInt64, max (a.width - n) 1⟩)
      ((Number.shiftRight m n.toNatClampNeg).width ≤ 64) (.shiftRight m n.toNatClampNeg) := by
  have hn' := Int64.toInt_eq_toNatClampNeg hn
  have hlt := n.toNatClampNeg_lt
  have := ha.narrow
  have hbits : (shiftDown a.bits n.toUInt64).toNat = m.value / 2 ^ n.toNatClampNeg := by
    rw [toNat_shiftDown, ha.bits, toNat_toUInt64 hn']
  have hwidth : (max (a.width - n) 1).toInt = (max (m.width - n.toNatClampNeg) 1 : ℕ) := by
    have hsub : (a.width - n).toInt = m.width - n.toNatClampNeg := by
      rw [toInt_sub] <;> rw [ha.width, hn'] <;> omega
    rw [toInt_max, hsub, Int64.toInt_one]
    omega
  have hfits : m.value / 2 ^ n.toNatClampNeg < 2 ^ max (m.width - n.toNatClampNeg) 1 := by
    apply Nat.div_lt_of_lt_mul
    rw [← pow_add]
    exact ha.fits.trans_le (Nat.pow_le_pow_right two_pos (by omega))
  have hk : max (m.width - n.toNatClampNeg) 1 ≤ 64 := by omega
  exact .ok hbits hwidth hfits hk

theorem toInt_width_sub {n : Int64} (hn : 0 ≤ n) (hle : n.toInt ≤ m.width) :
    (a.width - n).toInt = (m.width - n.toNatClampNeg : ℕ) := by
  have hn' := Int64.toInt_eq_toNatClampNeg hn
  have := ha.narrow
  rw [toInt_sub] <;> rw [ha.width, hn'] <;> omega

theorem evalBits_agrees {hi lo : Int64} (hlo : 0 ≤ lo) (hle : lo ≤ hi) :
    Agrees (evalBits a hi lo)
      (hi.toInt < m.width ∧ (Number.bits m hi.toNatClampNeg lo.toNatClampNeg).width ≤ 64)
      (.bits m hi.toNatClampNeg lo.toNatClampNeg) := by
  have hlo' := Int64.toInt_eq_toNatClampNeg hlo
  have hhi' := Int64.toInt_eq_toNatClampNeg (Int64.le_trans hlo hle)
  have hle' := Int64.le_iff_toInt_le.mp hle
  have := ha.narrow
  unfold evalBits
  simp only [Int64.le_iff_toInt_le, ha.width]
  split_ifs with h
  · exact .error (by omega)
  · set k := hi.toNatClampNeg - lo.toNatClampNeg + 1 with hk
    have hsub : (hi - lo).toInt = hi.toInt - lo.toInt := toInt_sub (by omega) (by omega)
    have hwidth : (hi - lo + 1).toInt = k := by
      rw [toInt_add] <;> rw [hsub, Int64.toInt_one] <;> omega
    have hbits : (shiftDown a.bits lo.toUInt64 &&& mask (hi - lo + 1)).toNat =
        m.value / 2 ^ lo.toNatClampNeg % 2 ^ k := by
      rw [toNat_and_mask _ hwidth (by omega), toNat_shiftDown, ha.bits, toNat_toUInt64 hlo']
    have hfits : m.value / 2 ^ lo.toNatClampNeg % 2 ^ k < 2 ^ k := Nat.mod_lt _ (Nat.two_pow_pos k)
    have hk64 : k ≤ 64 := by omega
    exact (Agrees.ok hbits hwidth hfits hk64).of_iff (by simp only [Number.bits]; omega)

theorem evalHead_agrees {n : Int64} (hn : 0 ≤ n) :
    Agrees (evalHead a n)
      (n.toInt ≤ m.width ∧ (Number.head m n.toNatClampNeg).width ≤ 64)
      (.head m n.toNatClampNeg) := by
  have hn' := Int64.toInt_eq_toNatClampNeg hn
  have := ha.narrow
  unfold evalHead
  simp only [Int64.lt_iff_toInt_lt, ha.width]
  split_ifs with h
  · exact .error (by omega)
  · have hsub := toInt_width_sub ha hn (by omega)
    have hbits : (shiftDown a.bits (a.width - n).toUInt64).toNat =
        m.value / 2 ^ (m.width - n.toNatClampNeg) := by
      rw [toNat_shiftDown, ha.bits, toNat_toUInt64 hsub]
    have hfits : m.value / 2 ^ (m.width - n.toNatClampNeg) < 2 ^ n.toNatClampNeg := by
      apply Nat.div_lt_of_lt_mul
      rw [← pow_add, Nat.sub_add_cancel (by omega)]
      exact ha.fits
    have hn64 : n.toNatClampNeg ≤ 64 := by omega
    exact (Agrees.ok hbits hn' hfits hn64).of_iff (by simp only [Number.head]; omega)

theorem evalTail_agrees {n : Int64} (hn : 0 ≤ n) :
    Agrees (evalTail a n)
      (n.toInt ≤ m.width ∧ (Number.tail m n.toNatClampNeg).width ≤ 64)
      (.tail m n.toNatClampNeg) := by
  have hn' := Int64.toInt_eq_toNatClampNeg hn
  have := ha.narrow
  unfold evalTail
  simp only [Int64.lt_iff_toInt_lt, ha.width]
  split_ifs with h
  · exact .error (by omega)
  · have hsub := toInt_width_sub ha hn (by omega)
    have hbits : (a.bits &&& mask (a.width - n)).toNat =
        m.value % 2 ^ (m.width - n.toNatClampNeg) := by
      rw [toNat_and_mask _ hsub (by omega), ha.bits]
    have hfits := Nat.mod_lt m.value (Nat.two_pow_pos (m.width - n.toNatClampNeg))
    have hk : m.width - n.toNatClampNeg ≤ 64 := by omega
    exact (Agrees.ok hbits hsub hfits hk).of_iff (by simp only [Number.tail]; omega)

end

end GuardedRtl.Rtl
