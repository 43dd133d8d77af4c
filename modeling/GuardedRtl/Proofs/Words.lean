import GuardedRtl.Rtl.Eval
import Mathlib.Data.Nat.Size
import Mathlib.Tactic

/-! The words of an evaluation as numbers. A word of bits is read as a natural number and a width as
an integer; each operation on words is, within its bounds, the operation on numbers of that name. -/

namespace GuardedRtl.Rtl

/-! Widths -/

theorem toNat_toUInt64 {n : Int64} {k : ℕ} (h : n.toInt = k) : n.toUInt64.toNat = k := by
  have hmsb : n.toBitVec.msb = false := by
    rw [BitVec.msb_eq_toInt]
    have : n.toBitVec.toInt = k := h
    simp [this]
  have hint : n.toBitVec.toInt = n.toBitVec.toNat := BitVec.toInt_eq_toNat_of_msb hmsb
  have : (n.toBitVec.toNat : ℤ) = k := hint.symm.trans h
  exact_mod_cast this

theorem toInt_toInt64 {x : UInt64} (h : x.toNat < 2 ^ 63) : x.toInt64.toInt = x.toNat := by
  change x.toBitVec.toInt = x.toBitVec.toNat
  exact BitVec.toInt_eq_toNat_of_lt (by change 2 * x.toNat < 2 ^ 64; omega)

theorem toInt_add {m n : Int64} (hlo : -2 ^ 63 ≤ m.toInt + n.toInt)
    (hhi : m.toInt + n.toInt < 2 ^ 63) : (m + n).toInt = m.toInt + n.toInt := by
  rw [Int64.toInt_add]
  exact Int.bmod_eq_of_le (by omega) (by omega)

theorem toInt_sub {m n : Int64} (hlo : -2 ^ 63 ≤ m.toInt - n.toInt)
    (hhi : m.toInt - n.toInt < 2 ^ 63) : (m - n).toInt = m.toInt - n.toInt := by
  rw [Int64.toInt_sub]
  exact Int.bmod_eq_of_le (by omega) (by omega)

theorem toInt_max (m n : Int64) : (max m n).toInt = max m.toInt n.toInt := by
  change (if m ≤ n then n else m).toInt = _
  simp only [Int64.le_iff_toInt_le]
  split <;> omega

theorem toInt_min (m n : Int64) : (min m n).toInt = min m.toInt n.toInt := by
  change (if m ≤ n then m else n).toInt = _
  simp only [Int64.le_iff_toInt_le]
  split <;> omega

/-! Bits -/

theorem toNat_shiftUp (x n : UInt64) :
    (shiftUp x n).toNat = x.toNat * 2 ^ n.toNat % 2 ^ 64 := by
  unfold shiftUp
  split_ifs with h
  · have hn : n.toNat < 64 := h
    rw [UInt64.toNat_shiftLeft, Nat.mod_eq_of_lt hn, Nat.shiftLeft_eq]
  · have hn : 64 ≤ n.toNat := Nat.le_of_not_lt h
    have hd : 2 ^ 64 ∣ x.toNat * 2 ^ n.toNat := (pow_dvd_pow 2 hn).mul_left _
    exact (Nat.mod_eq_zero_of_dvd hd).symm

theorem toNat_shiftDown (x n : UInt64) : (shiftDown x n).toNat = x.toNat / 2 ^ n.toNat := by
  unfold shiftDown
  split_ifs with h
  · have hn : n.toNat < 64 := h
    rw [UInt64.toNat_shiftRight, Nat.mod_eq_of_lt hn, Nat.shiftRight_eq_div_pow]
  · have hn : 64 ≤ n.toNat := Nat.le_of_not_lt h
    have hx : x.toNat < 2 ^ n.toNat := x.toNat_lt.trans_le (Nat.pow_le_pow_right two_pos hn)
    exact (Nat.div_eq_of_lt hx).symm

theorem toNat_shiftUp_one {w : Int64} {k : ℕ} (h : w.toInt = k) (hk : k < 64) :
    (shiftUp 1 w.toUInt64).toNat = 2 ^ k := by
  rw [toNat_shiftUp, toNat_toUInt64 h, UInt64.toNat_one, one_mul]
  exact Nat.mod_eq_of_lt (Nat.pow_lt_pow_right one_lt_two hk)

theorem toNat_mask {w : Int64} {k : ℕ} (h : w.toInt = k) (hk : k ≤ 64) :
    (mask w).toNat = 2 ^ k - 1 := by
  unfold mask
  simp only [Int64.le_iff_toInt_le, h, show (64 : Int64).toInt = 64 from rfl]
  split_ifs with h64
  · have : k = 64 := by omega
    subst this
    rfl
  · have hup := toNat_shiftUp_one h (by omega)
    rw [UInt64.toNat_sub_of_le, hup]
    · rfl
    · rw [UInt64.le_iff_toNat_le, hup]
      exact Nat.one_le_two_pow

/-- Masking to `k` bits is taking the remainder by `2 ^ k`. -/
theorem toNat_and_mask (x : UInt64) {w : Int64} {k : ℕ} (h : w.toInt = k) (hk : k ≤ 64) :
    (x &&& mask w).toNat = x.toNat % 2 ^ k := by
  rw [UInt64.toNat_and, toNat_mask h hk, Nat.and_two_pow_sub_one_eq_mod]

theorem bits_eq_zero_iff (x : UInt64) : x = 0 ↔ x.toNat = 0 := by
  rw [← UInt64.toNat_inj]
  rfl

/-- The bit length of a word is the size of its number. -/
theorem bitLength_eq_size (x : UInt64) : bitLength x = x.toNat.size := by
  unfold bitLength
  split_ifs with h
  · simp [h, Nat.size_zero]
  · have hx : x.toNat ≠ 0 := by rwa [ne_eq, ← bits_eq_zero_iff]
    apply le_antisymm
    · exact Nat.lt_size.mpr (Nat.log2_self_le hx)
    · exact Nat.size_le.mpr Nat.lt_log2_self

end GuardedRtl.Rtl
