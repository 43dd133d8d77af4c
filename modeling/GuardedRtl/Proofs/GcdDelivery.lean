import GuardedRtl.Proofs.GcdRun

/-! The circuit of Euclid's algorithm delivers a result, unless its first operand is zero and the
second is not. Every cycle in which it is busy brings the second number closer to zero
(`remaining_advance`), and in a run that offers nothing more the result stays. With a first operand
of zero a subtraction takes nothing away: the numbers stay as they are for ever (`trace_stalled`). -/

namespace GuardedRtl

open Rtl

namespace Gcd

/-- A bound on the cycles until the second number is zero. Numbers in order need one less than
numbers that have to be swapped first. -/
def remaining (a b : ℕ) : ℕ :=
  if b = 0 then 0 else if b < a then a + b else a + b - 1

/-- The two rules can bring the second number to zero. -/
def Solvable (a b : ℕ) : Prop := a ≠ 0 ∨ b = 0

theorem remaining_le (a b : ℕ) : remaining a b ≤ a + b := by
  unfold remaining
  split_ifs <;> omega

theorem Solvable.eq_zero {a b : ℕ} (h : Solvable a b) (hremaining : remaining a b = 0) : b = 0 := by
  unfold remaining at hremaining
  unfold Solvable at h
  split_ifs at hremaining <;> omega

section

variable {o : Offer} {a b : ℕ}

theorem advance_idle (hquiet : o.enable = false) : advance o a 0 = (a, 0) := by
  simp [advance, hquiet]

theorem advance_swap (hb : b ≠ 0) (hlt : b < a) : advance o a b = (b, a) := by
  rw [advance, if_neg hb, if_pos hlt]

theorem advance_subtract (hb : b ≠ 0) (hle : a ≤ b) : advance o a b = (a, b - a) := by
  rw [advance, if_neg hb, if_neg hle.not_gt]

theorem Solvable.advance (h : Solvable a b) (hquiet : o.enable = false) :
    Solvable (advance o a b).1 (advance o a b).2 := by
  by_cases hb : b = 0
  · subst hb
    rw [advance_idle hquiet]
    exact .inr rfl
  · rcases Nat.lt_or_ge b a with hlt | hle
    · rw [advance_swap hb hlt]
      exact .inl hb
    · rw [advance_subtract hb hle]
      exact .inl (h.resolve_right hb)

theorem Solvable.remaining_advance (h : Solvable a b) (hquiet : o.enable = false) :
    remaining (Gcd.advance o a b).1 (Gcd.advance o a b).2 ≤ remaining a b - 1 := by
  by_cases hb : b = 0
  · subst hb
    rw [advance_idle hquiet]
    exact Nat.zero_le _
  · have ha : a ≠ 0 := h.resolve_right hb
    rcases Nat.lt_or_ge b a with hlt | hle
    · rw [advance_swap hb hlt]
      simp only [remaining, ha, hb, hlt, hlt.not_gt, if_true, if_false]
      omega
    · -- If a swap follows, then at least two have been taken away.
      rw [advance_subtract hb hle]
      simp only [remaining, hb, hle.not_gt, if_false]
      split_ifs <;> omega

theorem gcd_advance_quiet (hquiet : o.enable = false) :
    Nat.gcd (advance o a b).1 (advance o a b).2 = Nat.gcd a b := by
  by_cases hb : b = 0
  · subst hb
    rw [advance_idle hquiet]
  · exact gcd_advance hb

end

section

variable {offers : ℕ → Offer} {a b : ℕ} (hstart : offers 0 = ⟨true, a, b⟩) (x₀ : ℕ)

include hstart

theorem trace_one : trace offers x₀ 0 1 = (a, b) := by
  rw [trace, trace, hstart]
  rfl

/-- Each cycle takes one off the bound. -/
theorem trace_solvable (hquiet : ∀ n, (offers (n + 1)).enable = false) (h : Solvable a b) (n : ℕ) :
    Solvable (trace offers x₀ 0 (n + 1)).1 (trace offers x₀ 0 (n + 1)).2 ∧
      remaining (trace offers x₀ 0 (n + 1)).1 (trace offers x₀ 0 (n + 1)).2 ≤ a + b - n ∧
      Nat.gcd (trace offers x₀ 0 (n + 1)).1 (trace offers x₀ 0 (n + 1)).2 = Nat.gcd a b := by
  induction n with
  | zero =>
    rw [trace_one hstart]
    exact ⟨h, remaining_le a b, rfl⟩
  | succ n ih =>
    obtain ⟨hsolvable, hbound, hgcd⟩ := ih
    have hstep := hsolvable.remaining_advance (hquiet n)
    rw [trace]
    refine ⟨hsolvable.advance (hquiet n), ?_, ?_⟩
    · omega
    · rw [gcd_advance_quiet (hquiet n), hgcd]

theorem trace_delivered (hquiet : ∀ n, (offers (n + 1)).enable = false) (h : Solvable a b) {n : ℕ}
    (hn : a + b ≤ n) : trace offers x₀ 0 (n + 1) = (Nat.gcd a b, 0) := by
  obtain ⟨hsolvable, hbound, hgcd⟩ := trace_solvable hstart x₀ hquiet h n
  have hzero : (trace offers x₀ 0 (n + 1)).2 = 0 := hsolvable.eq_zero (by omega)
  rw [hzero, Nat.gcd_zero_right] at hgcd
  exact Prod.ext hgcd hzero

/-- Nothing that is offered ends this either: the circuit is not ready for it. -/
theorem trace_stalled (h : ¬ Solvable a b) (n : ℕ) : trace offers x₀ 0 (n + 1) = (0, b) := by
  obtain ⟨ha, hb⟩ := not_or.mp h
  obtain rfl : a = 0 := not_not.mp ha
  induction n with
  | zero => exact trace_one hstart x₀
  | succ n ih => rw [trace, ih, advance_subtract hb (Nat.zero_le b), Nat.sub_zero]

end

/-- The circuit is started on `a` and `b` when the second register is zero, and then nothing more is
offered. Unless `a` is zero and `b` is not, the result is ready after at most `a + b` further cycles;
it stays, and it is the greatest common divisor. Otherwise it is never ready. -/
theorem circuit_delivers (w : ℕ) (hlow : 1 ≤ w) (hhigh : w ≤ 63) :
    ∃ m, circuit (.ofNat w) = .ok ⟨"Gcd", [m]⟩ ∧
      ∀ (state : Env) (inputs : ℕ → Env) (offers : ℕ → Offer) (x₀ a b : ℕ),
        Holds w state x₀ 0 → (∀ n, Offers w (inputs n) (offers n)) → offers 0 = ⟨true, a, b⟩ →
        (∀ n, (offers (n + 1)).enable = false) →
        (a ≠ 0 ∨ b = 0 → ∀ n, a + b ≤ n →
          m.settled (m.cycle state inputs (n + 1)) "result_ready" = some (.ofBool true) ∧
          m.settled (m.cycle state inputs (n + 1)) "result_value" =
            some (word w (Nat.gcd a b))) ∧
        (a = 0 ∧ b ≠ 0 → ∀ n,
          m.settled (m.cycle state inputs (n + 1)) "result_ready" = some (.ofBool false)) := by
  obtain ⟨names, hcircuit, hnames⟩ := circuit_eq (ofNat_nonneg hhigh)
  refine ⟨_, hcircuit, fun state inputs offers x₀ a b hholds hoffers hstart hquiet => ?_⟩
  have hbegins := begins_cycle hlow hhigh hnames hholds hoffers
  refine ⟨fun h n hn => ?_, fun h n => ?_⟩
  · have htrace := trace_delivered hstart x₀ hquiet h hn
    rw [(hbegins (n + 1)).result_ready, (hbegins (n + 1)).result_value, htrace]
    exact ⟨rfl, rfl⟩
  · have htrace := trace_stalled hstart x₀ (fun hsolvable => hsolvable.elim (· h.1) h.2) n
    rw [(hbegins (n + 1)).result_ready, htrace, decide_eq_false h.2]

/-! Runs of the circuit of four bits with a single offer. -/

namespace Single

def offers (a b : ℕ) : ℕ → Offer
  | 0 => ⟨true, a, b⟩
  | _ + 1 => ⟨false, 0, 0⟩

def inputs (a b n : ℕ) : Env :=
  ((((Env.empty.bind "clk" ⟨0, 1⟩).bind "reset" ⟨0, 1⟩).bind "start_enable"
    (.ofBool (offers a b n).enable)).bind "start_a" (word 4 (offers a b n).first)).bind "start_b"
    (word 4 (offers a b n).second)

def state : Env := (Env.empty.bind "Gcd_x" (word 4 9)).bind "Gcd_y" (word 4 0)

theorem holds_state : Holds 4 state 9 0 := ⟨by decide, by decide, by decide, by decide⟩

theorem offers_inputs {a b : ℕ} (ha : a < 2 ^ 4) (hb : b < 2 ^ 4) (n : ℕ) :
    Offers 4 (inputs a b n) (offers a b n) := by
  cases n with
  | zero => exact ⟨⟨⟨0, 1⟩, rfl, by decide⟩, rfl, rfl, rfl, rfl, ha, hb⟩
  | succ n =>
    exact ⟨⟨⟨0, 1⟩, rfl, by decide⟩, rfl, rfl, rfl, rfl, (by decide : 0 < 2 ^ 4),
      (by decide : 0 < 2 ^ 4)⟩

end Single

/-- The operands two and one take as many cycles as the bound says. -/
theorem circuit_delivers_single :
    Holds 4 Single.state 9 0 ∧ (∀ n, Offers 4 (Single.inputs 2 1 n) (Single.offers 2 1 n)) ∧
    ∃ m, circuit (.ofNat 4) = .ok ⟨"Gcd", [m]⟩ ∧
      m.settled (m.cycle Single.state (Single.inputs 2 1) 4) "result_ready" =
        some (.ofBool true) ∧
      m.settled (m.cycle Single.state (Single.inputs 2 1) 4) "result_value" = some (word 4 1) := by
  have hoffers := @Single.offers_inputs 2 1 (by decide) (by decide)
  obtain ⟨m, hm, hrun⟩ := circuit_delivers 4 (by decide) (by decide)
  obtain ⟨hdelivers, -⟩ := hrun Single.state (Single.inputs 2 1) (Single.offers 2 1) 9 2 1
    Single.holds_state hoffers rfl fun _ => rfl
  exact ⟨Single.holds_state, hoffers, m, hm, hdelivers (.inl (by decide)) 3 (by decide)⟩

/-- The greatest common divisor of zero and five is never delivered. -/
theorem circuit_stalls :
    Holds 4 Single.state 9 0 ∧ (∀ n, Offers 4 (Single.inputs 0 5 n) (Single.offers 0 5 n)) ∧
    Single.offers 0 5 0 = ⟨true, 0, 5⟩ ∧ (∀ n, (Single.offers 0 5 (n + 1)).enable = false) ∧
    ∃ m, circuit (.ofNat 4) = .ok ⟨"Gcd", [m]⟩ ∧
      ¬ ∃ n, m.settled (m.cycle Single.state (Single.inputs 0 5) (n + 1)) "result_ready" =
        some (.ofBool true) := by
  have hoffers := @Single.offers_inputs 0 5 (by decide) (by decide)
  obtain ⟨names, hcircuit, hnames⟩ := circuit_eq (ofNat_nonneg (by decide : 4 ≤ 63))
  refine ⟨Single.holds_state, hoffers, rfl, fun _ => rfl, _, hcircuit, ?_⟩
  rintro ⟨n, hready⟩
  have hbegins := begins_cycle (by decide) (by decide) hnames Single.holds_state hoffers (n + 1)
  have htrace : trace (Single.offers 0 5) 9 0 (n + 1) = (0, 5) :=
    @trace_stalled (Single.offers 0 5) 0 5 rfl 9 (not_or.mpr ⟨by decide, by decide⟩) n
  rw [hbegins.result_ready, htrace] at hready
  exact absurd hready (by decide)

end Gcd

end GuardedRtl
