import GuardedRtl.Proofs.Decimals

/-! The texts of integers: a sign or none, and one or more decimal digits. The value of the digits is
given by their places, and `Text.readInt?` reads exactly these texts, as far as their values fit 64 bits
with a sign. -/

namespace GuardedRtl.Text

/-- One or more decimal digits and nothing else. -/
structure IsDecimal (ds : List Char) : Prop where
  ne_nil : ds ≠ []
  digit : ∀ c ∈ ds, '0' ≤ c ∧ c ≤ '9'

/-- The value of digits by their places, the last of which is that of units. -/
def placeValue (ds : List Char) : ℕ := Nat.ofDigits 10 (ds.reverse.map fun c => c.toNat - '0'.toNat)

/-- The texts of an integer. -/
inductive Numeral : List Char → ℤ → Prop
  | plain {ds : List Char} (h : IsDecimal ds) : Numeral ds (placeValue ds)
  | plus {ds : List Char} (h : IsDecimal ds) : Numeral ('+' :: ds) (placeValue ds)
  | minus {ds : List Char} (h : IsDecimal ds) : Numeral ('-' :: ds) (-placeValue ds)

theorem digitsValue_eq_placeValue (ds : List Char) : digitsValue ds = placeValue ds := by
  unfold digitsValue placeValue
  rw [Nat.ofDigits_eq_foldr, List.foldr_map, List.foldr_reverse]
  congr 1
  funext n c
  simp only [digitValue, Nat.cast_id]
  omega

theorem digitsValue_append (xs ys : List Char) :
    digitsValue (xs ++ ys) = digitsValue xs * 10 ^ ys.length + digitsValue ys := by
  simp only [digitsValue_eq_placeValue, placeValue, List.reverse_append, List.map_append,
    Nat.ofDigits_append, List.length_map, List.length_reverse]
  ring

theorem digitsValue_cons (c : Char) (cs : List Char) :
    digitsValue (c :: cs) = digitValue c * 10 ^ cs.length + digitsValue cs := by
  have hdigit : digitsValue [c] = digitValue c := by simp [digitsValue]
  rw [← List.singleton_append, digitsValue_append, hdigit]

theorem digitValue_lt {c : Char} (h : isDigit c) : digitValue c < 10 := by
  have hle : c.toNat ≤ '9'.toNat := by
    simp only [isDigit, Bool.and_eq_true, decide_eq_true_eq] at h
    exact UInt32.le_iff_toNat_le.mp h.2
  have hnine : '9'.toNat = '0'.toNat + 9 := rfl
  unfold digitValue
  omega

theorem digitsValue_lt {ds : List Char} (h : ∀ c ∈ ds, isDigit c) :
    digitsValue ds < 10 ^ ds.length := by
  have hsmall : ∀ d ∈ ds.reverse.map fun c => c.toNat - '0'.toNat, d < 10 := by
    intro d hd
    obtain ⟨c, hc, rfl⟩ := List.mem_map.mp hd
    exact digitValue_lt (h c (List.mem_reverse.mp hc))
  have hlt := Nat.ofDigits_lt_base_pow_length (by decide) hsmall
  rw [List.length_map, List.length_reverse] at hlt
  rw [digitsValue_eq_placeValue]
  exact hlt

theorem IsDecimal.all_isDigit {ds : List Char} (h : IsDecimal ds) : ds.all isDigit := by
  rw [List.all_eq_true]
  intro c hc
  simpa [isDigit] using h.digit c hc

theorem isDecimal_iff {ds : List Char} : IsDecimal ds ↔ (ds.isEmpty || !ds.all isDigit) = false := by
  constructor
  · intro h
    simp [h.ne_nil, h.all_isDigit]
  · intro h
    simp only [Bool.or_eq_false_iff, Bool.not_eq_false'] at h
    refine ⟨by simpa using h.1, fun c hc => ?_⟩
    simpa [isDigit] using List.all_eq_true.mp h.2 c hc

/-- What is split off as a sign is the sign of the grammar. -/
theorem numeral_iff {cs : List Char} {z : ℤ} :
    Numeral cs z ↔
      IsDecimal (splitSign cs).2 ∧ z = signed (splitSign cs).1 (placeValue (splitSign cs).2) := by
  constructor
  · rintro (h | h | h)
    · rw [splitSign_of_digits h.all_isDigit]
      exact ⟨h, rfl⟩
    · exact ⟨h, rfl⟩
    · exact ⟨h, rfl⟩
  · rintro ⟨h, rfl⟩
    unfold splitSign at h ⊢
    split at h
    · exact .minus h
    · exact .plus h
    · exact .plain h

theorem readInt?_eq_some_iff {cs : List Char} {n : Int64} :
    readInt? cs = some n ↔ Numeral cs n.toInt := by
  rw [numeral_iff, isDecimal_iff, ← digitsValue_eq_placeValue, ← int64?_eq_some_iff]
  unfold readInt?
  cases h : (splitSign cs).2.isEmpty || !(splitSign cs).2.all isDigit <;> simp [h]

end GuardedRtl.Text
