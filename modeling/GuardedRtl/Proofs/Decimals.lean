import GuardedRtl.Rtl.Operator
import GuardedRtl.Text.Number
import Mathlib.Tactic

/-! Decimal numbers read back. The decimal text of a number is an optional minus and digits, and
`Text.readInt?` gives the number again, so no two numbers have one text. Which numbers fit 64 bits with a
sign is said once, `int64?_eq_some_iff`. -/

namespace GuardedRtl.Text

theorem digitsValue_toDigits (n : ℕ) : digitsValue (Nat.toDigits 10 n) = n := by
  have hstep : (fun k c => k * 10 + digitValue c) = fun k c => 10 * k + (c.toNat - '0'.toNat) := by
    funext k c
    rw [Nat.mul_comm, digitValue]
  unfold digitsValue
  rw [hstep]
  exact Nat.ofDigitChars_toDigits (by decide) le_rfl

theorem all_isDigit_toDigits (n : ℕ) : (Nat.toDigits 10 n).all isDigit := by
  rw [List.all_eq_true]
  intro c hc
  exact Nat.isDigit_of_mem_toDigits (by decide) le_rfl hc

theorem repr_injective : Function.Injective Nat.repr := by
  intro m n h
  have hdigits := congrArg String.toList h
  rw [Nat.toList_repr, Nat.toList_repr] at hdigits
  rw [← digitsValue_toDigits m, hdigits, digitsValue_toDigits]

theorem isDigit_of_mem_repr {n : ℕ} {c : Char} (h : c ∈ (Nat.repr n).toList) : c.isDigit := by
  rw [Nat.toList_repr] at h
  exact Nat.isDigit_of_mem_toDigits (by decide) le_rfl h

/-- A text that begins with a digit carries no sign. -/
theorem splitSign_cons {c : Char} (cs : List Char) (h : isDigit c) :
    splitSign (c :: cs) = (false, c :: cs) := by
  unfold splitSign
  split
  · next heq => simp [(List.cons.inj heq).1, isDigit] at h
  · next heq => simp [(List.cons.inj heq).1, isDigit] at h
  · rfl

theorem splitSign_of_digits {cs : List Char} (h : cs.all isDigit) : splitSign cs = (false, cs) := by
  cases cs with
  | nil => rfl
  | cons c cs =>
    rw [List.all_cons, Bool.and_eq_true] at h
    exact splitSign_cons cs h.1

/-- The integer of a magnitude and a sign. -/
def signed (negative : Bool) (magnitude : ℕ) : ℤ := if negative then -magnitude else magnitude

/-- A magnitude and a sign make a number of 64 bits exactly if there is one of that value. -/
theorem int64?_eq_some_iff {negative : Bool} {m : ℕ} {n : Int64} :
    int64? negative m = some n ↔ n.toInt = signed negative m := by
  have hlow : -2 ^ 63 ≤ n.toInt := n.le_toInt
  have hhigh : n.toInt < 2 ^ 63 := n.toInt_lt
  have hpow : Nat.pow 2 63 = 2 ^ 63 := rfl
  unfold int64? signed
  cases negative with
  | true =>
    simp only [if_true]
    split_ifs with hm
    · have hvalue : (Int64.ofInt (-(m : ℤ))).toInt = -m := by
        apply Int64.toInt_ofInt_of_le <;> omega
      rw [Option.some.injEq, ← Int64.toInt_inj, hvalue, eq_comm]
    · simp only [false_iff]
      omega
  | false =>
    simp only [Bool.false_eq_true, if_false]
    split_ifs with hm
    · rw [Option.some.injEq, ← Int64.toInt_inj, Int64.toInt_ofNat_of_lt hm, eq_comm]
    · simp only [false_iff]
      omega

theorem readInt?_repr (n : ℕ) : readInt? (Nat.repr n).toList = int64? false n := by
  rw [Nat.toList_repr, readInt?, splitSign_of_digits (all_isDigit_toDigits n)]
  simp [all_isDigit_toDigits, digitsValue_toDigits]

theorem readInt?_neg_repr (n : ℕ) : readInt? ('-' :: (Nat.repr n).toList) = int64? true n := by
  rw [Nat.toList_repr, readInt?, splitSign]
  simp [all_isDigit_toDigits, digitsValue_toDigits]

end GuardedRtl.Text

namespace GuardedRtl.Rtl

theorem decimal_nonneg {n : Int64} {m : ℕ} (h : n.toInt = m) : decimal n = Nat.repr m := by
  rw [decimal, h]
  rfl

theorem decimal_neg {n : Int64} {m : ℕ} (h : n.toInt = Int.negSucc m) :
    decimal n = "-" ++ Nat.repr (m + 1) := by
  rw [decimal, h]
  rfl

/-- The decimal text of a number reads back as the number. -/
theorem readInt?_decimal (n : Int64) : Text.readInt? (decimal n).toList = some n := by
  cases h : n.toInt with
  | ofNat m =>
    rw [decimal_nonneg h, Text.readInt?_repr, Text.int64?_eq_some_iff]
    exact h
  | negSucc m =>
    have htext : (decimal n).toList = '-' :: (Nat.repr (m + 1)).toList := by
      simp [decimal_neg h]
    rw [htext, Text.readInt?_neg_repr, Text.int64?_eq_some_iff]
    exact h

theorem decimal_injective : Function.Injective decimal := by
  intro m n h
  have hread := readInt?_decimal m
  rw [h, readInt?_decimal n] at hread
  exact (Option.some.inj hread).symm

theorem decimal_ne_nil (n : Int64) : (decimal n).toList ≠ [] := by
  intro h
  have hread := readInt?_decimal n
  rw [h] at hread
  cases hread

theorem mem_decimal {n : Int64} {c : Char} (h : c ∈ (decimal n).toList) :
    c = '-' ∨ c.isDigit := by
  cases hn : n.toInt with
  | ofNat m =>
    rw [decimal_nonneg hn] at h
    exact .inr (Text.isDigit_of_mem_repr h)
  | negSucc m =>
    rw [decimal_neg hn, String.toList_append, List.mem_append] at h
    rcases h with h | h
    · exact .inl (by simpa using h)
    · exact .inr (Text.isDigit_of_mem_repr h)

end GuardedRtl.Rtl
