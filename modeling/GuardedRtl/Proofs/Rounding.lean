import GuardedRtl.Sim.Duration
import Mathlib.Tactic

/-! Fractions of a unit. They are computed with rounding to 53 significant bits, and rounding leaves
alone what needs no more: a whole number below `2 ^ 53`, and a quotient that is one. So the fraction of a
unit is exact wherever it is a whole number of nanoseconds. -/

namespace GuardedRtl.Sim.Duration

theorem roundHalfEven_mul (m : ℕ) {b : ℕ} (hb : 0 < b) : roundHalfEven (m * b) b = m := by
  unfold roundHalfEven
  simp [Nat.mul_div_cancel m hb, hb.ne]

theorem roundNat_of_lt {n : ℕ} (h : n < 2 ^ 53) : roundNat n = n := by
  have hlog : n.log2 - 52 = 0 := by
    rcases Nat.eq_zero_or_pos n with rfl | hn
    · rfl
    · have : n.log2 < 53 := (Nat.log2_lt hn.ne').mpr h
      omega
  have hunit : Nat.pow 2 (n.log2 - 52) = 1 := by rw [hlog]
  have hround := roundHalfEven_mul n Nat.one_pos
  unfold roundNat
  rw [hunit]
  simpa using hround

theorem scaleBy_natCast (s a b : ℕ) : scaleBy s a b = (a * 2 ^ s, b) := by
  unfold scaleBy
  rw [if_pos (Int.natCast_nonneg s), Int.toNat_natCast]
  rfl

/-- Scaling down what was scaled up, the quotient is the same. -/
theorem scaleBy_neg (s m : ℕ) : ∃ d, 0 < d ∧ scaleBy (-s) (m * 2 ^ s) 1 = (m * d, d) := by
  unfold scaleBy
  rcases Nat.eq_zero_or_pos s with rfl | hs
  · exact ⟨1, Nat.one_pos, by simp⟩
  · refine ⟨2 ^ s, by positivity, ?_⟩
    rw [if_neg (by omega), neg_neg, Int.toNat_natCast, Nat.one_mul]
    rfl

theorem log2_mul_le {m b : ℕ} (hm : 0 < m) (hb : 0 < b) :
    (m * b).log2 ≤ m.log2 + b.log2 + 1 := by
  have hlt : m * b < 2 ^ (m.log2 + 1) * 2 ^ (b.log2 + 1) :=
    Nat.mul_lt_mul'' Nat.lt_log2_self Nat.lt_log2_self
  rw [← pow_add] at hlt
  have := (Nat.log2_lt (Nat.mul_pos hm hb).ne').mpr hlt
  omega

/-- A quotient that is a whole number below `2 ^ 53` is not rounded. -/
theorem roundQuotient_exact {m b : ℕ} (hm : m < 2 ^ 53) (hb : 0 < b) :
    ∃ d, 0 < d ∧ roundQuotient (m * b) b = (m * d, d) := by
  rcases Nat.eq_zero_or_pos m with rfl | hpos
  · exact ⟨1, Nat.one_pos, by simp [roundQuotient]⟩
  have hlog : m.log2 < 53 := (Nat.log2_lt hpos.ne').mpr hm
  have hmul := log2_mul_le hpos hb
  obtain ⟨s, hs⟩ : ∃ s : ℕ, ((m * b).log2 : ℤ) - b.log2 - 53 = -s :=
    ⟨53 + b.log2 - (m * b).log2, by omega⟩
  -- Neither exponent is positive, since the second one is above the first only if the first is below zero.
  obtain ⟨t, ht⟩ : ∃ t : ℕ, (if Nat.pow 2 53 ≤ m * b * 2 ^ s / b then -(s : ℤ) + 1 else -s) = -t := by
    split_ifs with hlarge
    · have hdiv : m * b * 2 ^ s / b = m * 2 ^ s := by
        rw [Nat.mul_right_comm, Nat.mul_div_cancel _ hb]
      rw [hdiv] at hlarge
      have hs0 : s ≠ 0 := by
        rintro rfl
        exact absurd hlarge (by simpa using hm)
      exact ⟨s - 1, by omega⟩
    · exact ⟨s, rfl⟩
  have hround : roundHalfEven (m * b * 2 ^ t) b = m * 2 ^ t := by
    rw [Nat.mul_right_comm, roundHalfEven_mul _ hb]
  unfold roundQuotient
  rw [if_neg (Nat.mul_pos hpos hb).ne']
  simp only [hs, neg_neg, scaleBy_natCast, ht, hround]
  exact scaleBy_neg t m

/-- The nanoseconds in a part of a unit that is a whole number of them. -/
theorem fractionNanos_exact {fraction scale k : ℕ} (hk : 0 < k) (hfraction : fraction < scale)
    (hunit : k * scale < 2 ^ 53) : fractionNanos fraction scale (k * scale) = fraction * k := by
  have hscale : 0 < scale := Nat.zero_lt_of_lt hfraction
  have hround : roundNat fraction = fraction := by
    apply roundNat_of_lt
    calc fraction < scale := hfraction
      _ ≤ k * scale := Nat.le_mul_of_pos_left scale hk
      _ < 2 ^ 53 := hunit
  have hproduct : fraction * k < 2 ^ 53 := by
    calc fraction * k ≤ scale * k := Nat.mul_le_mul_right k hfraction.le
      _ = k * scale := Nat.mul_comm ..
      _ < 2 ^ 53 := hunit
  obtain ⟨d, hd, hquotient⟩ :=
    roundQuotient_exact (lt_of_le_of_lt (Nat.le_mul_of_pos_right k hscale) hunit) hscale
  obtain ⟨d', hd', hquotient'⟩ := roundQuotient_exact hproduct hd
  unfold fractionNanos
  simp only [hquotient, hround, ← Nat.mul_assoc, hquotient']
  exact Nat.mul_div_cancel _ hd'

end GuardedRtl.Sim.Duration
