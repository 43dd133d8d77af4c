import GuardedRtl.Proofs.Clocking
import GuardedRtl.Proofs.GcdCircuit
import Mathlib.Data.Nat.GCD.Basic

/-! Euclid's algorithm, cycle by cycle. A cycle of the circuit takes the numbers in its registers to
those that `advance` gives (`Begins.stored`), so a run goes through the numbers of a `trace`
(`begins_cycle`). While the circuit is busy the greatest common divisor does not change, whatever is
offered: the result is that of the operands it was started with (`circuit_computes`). -/

namespace GuardedRtl

open Rtl

theorem evaluable_leaf {r : Reading} {l : Leaf} {n : Number} (hl : r.leaf l = some n)
    (hn : n.width ≤ 64) : (Expr.leaf l).Evaluable r := by
  refine (Expr.evaluable_iff rfl).mpr ⟨⟨?_, ?_⟩, trivial⟩
  · rw [Expr.Supported, hl]
    rfl
  · rw [Expr.exact, hl]
    exact hn

theorem evaluable_compare {r : Reading} {op : CompareOp} {e₁ e₂ : Expr} (hop : op.isKnown)
    (h₁ : e₁.Evaluable r) (h₂ : e₂.Evaluable r) : (Expr.compare op e₁ e₂).Evaluable r := by
  refine (Expr.evaluable_iff rfl).mpr ⟨⟨trivial, ?_⟩, h₁, h₂⟩
  cases op with
  | unknown name => cases hop
  | _ => exact (by decide : 1 ≤ 64)

theorem width_le_of_evaluable {r : Reading} {e : Expr} (h : e.Evaluable r) :
    (e.exact r).width ≤ 64 := by
  cases e with
  | absent => exact Nat.zero_le 64
  | _ => exact ((Expr.evaluable_iff rfl).mp h).1.2

theorem evaluable_and {r : Reading} {e₁ e₂ : Expr} (h₁ : e₁.Evaluable r) (h₂ : e₂.Evaluable r) :
    (Expr.and e₁ e₂).Evaluable r := by
  have hwidth := max_le (width_le_of_evaluable h₁) (width_le_of_evaluable h₂)
  exact (Expr.evaluable_iff rfl).mpr ⟨⟨trivial, hwidth⟩, h₁, h₂⟩

theorem and_ofBool (s t : Bool) :
    Number.binary .and (.ofBool s) (.ofBool t) = .ofBool (s && t) := by
  cases s <;> cases t <;> rfl

/-- The guards of the constructs of the given name. -/
def Design.guards (d : Design) (name : String) : List Expr :=
  (d.constructs.filter fun c => c.name = name).map fun c => c.core.guard

theorem ready_of_exact {r : Reading} {e : Expr} {s : Bool} (h : e.exact r = .ofBool s) :
    decide (Ready r [e]) = s := by
  have hready : Ready r [e] ↔ s = true := by
    rw [Ready, List.forall_mem_singleton, h]
    cases s <;> decide
  cases s <;> simp [hready]

theorem decide_ofBool (s : Bool) : decide (some (Value.ofBool s) = some (.ofBool true)) = s := by
  cases s <;> decide

namespace Gcd

/-- The number `n` as a value of `w` bits. -/
def word (w n : ℕ) : Value := ⟨.ofNat n, .ofNat w⟩

section

variable {w n : ℕ}

theorem toInt_ofNat (hw : w ≤ 63) : (Int64.ofNat w).toInt = w :=
  Int64.toInt_ofNat_of_lt (by omega)

theorem toNatClampNeg_ofNat (hw : w ≤ 63) : (Int64.ofNat w).toNatClampNeg = w := by
  rw [Int64.toNatClampNeg, toInt_ofNat hw, Int.toNat_natCast]

theorem toNat_ofNat (hw : w ≤ 63) (hn : n < 2 ^ w) : (UInt64.ofNat n).toNat = n := by
  have hpow : 2 ^ w ≤ 2 ^ 63 := Nat.pow_le_pow_right two_pos hw
  exact UInt64.toNat_ofNat_of_lt (hn.trans_le (hpow.trans (by decide)))

theorem number_word (hw : w ≤ 63) (hn : n < 2 ^ w) : (word w n).number = ⟨n, w⟩ := by
  rw [word, Value.number, toNat_ofNat hw hn, toNatClampNeg_ofNat hw]

theorem wellFormed_word (hw : w ≤ 63) (hn : n < 2 ^ w) : (word w n).WellFormed := by
  have hint := toInt_ofNat hw
  refine ⟨?_, ?_, ?_⟩
  · rw [Int64.le_iff_toInt_le, word, hint]
    exact Int.natCast_nonneg w
  · rw [Int64.le_iff_toInt_le, word, hint]
    change (w : ℤ) ≤ 64
    omega
  · rw [word, toNat_ofNat hw hn, toNatClampNeg_ofNat hw]
    exact hn

theorem eq_word_of_holds {v : Value} (hw : w ≤ 63) (h : v.Holds ⟨n, w⟩) : v = word w n := by
  obtain ⟨hbits, hwidth, hfits, -⟩ := h
  obtain ⟨bits, width⟩ := v
  rw [word, Value.mk.injEq]
  refine ⟨UInt64.toNat_inj.mp ?_, Int64.toInt_inj.mp ?_⟩
  · rw [toNat_ofNat hw hfits]
    exact hbits
  · rw [toInt_ofNat hw]
    exact hwidth

theorem ofNat_nonneg (hw : w ≤ 63) : 0 ≤ Int64.ofNat w := by
  rw [Int64.le_iff_toInt_le, toInt_ofNat hw]
  exact Int.natCast_nonneg w

theorem ofNat_ne_zero (hlow : 1 ≤ w) (hw : w ≤ 63) : Int64.ofNat w ≠ 0 := by
  intro h
  have hint := toInt_ofNat hw
  rw [h] at hint
  change (0 : ℤ) = w at hint
  omega

end

/-- The registers hold `a` and `b`. -/
structure Holds (w : ℕ) (env : Env) (a b : ℕ) : Prop where
  first : env "Gcd_x" = some (word w a)
  second : env "Gcd_y" = some (word w b)
  first_lt : a < 2 ^ w
  second_lt : b < 2 ^ w

/-- Two operands, and whether to start with them. -/
structure Offer where
  enable : Bool
  first : ℕ
  second : ℕ

/-- The inputs make the offer, and the reset is low. -/
structure Offers (w : ℕ) (env : Env) (o : Offer) : Prop where
  clock : ∃ v ∈ env clockName, v.WellFormed
  reset : env resetName = some (.ofBool false)
  enable : env "start_enable" = some (.ofBool o.enable)
  first : env "start_a" = some (word w o.first)
  second : env "start_b" = some (word w o.second)
  first_lt : o.first < 2 ^ w
  second_lt : o.second < 2 ^ w

/-- A cycle of the circuit of width `w` begins. -/
structure Begins (w : ℕ) (names : StateNames) (env : Env) (a b : ℕ) (o : Offer) : Prop where
  low : 1 ≤ w
  high : w ≤ 63
  names : names.Perm (labels (.ofNat w))
  holds : Holds w env a b
  offers : Offers w env o

theorem ports_plan {width : Int64} {names : StateNames} : ((plan width).elaborated names).ports = [
    .input clockName .clock, .input resetName .bit, .input "start_enable" .bit,
    .input "start_a" (.uint width), .input "start_b" (.uint width), .output "start_ready" .bit,
    .output "result_ready" .bit, .output "result_value" (.uint width)] := rfl

section

variable {width : Int64}

theorem updatesOf_x : (plan width).updatesOf (x width) = [
    (.rule (swap width), second width),
    (.method (.action (start width) (operands width)), .leaf (.argument (operand "a" width)))] := by
  simp [Design.updatesOf, constructs_plan, Construct.core, Method.rule, swap, subtract, start,
    result, x, y]

theorem updatesOf_y : (plan width).updatesOf (y width) = [
    (.rule (swap width), first width),
    (.rule (subtract width), difference width),
    (.method (.action (start width) (operands width)), .leaf (.argument (operand "b" width)))] := by
  simp [Design.updatesOf, constructs_plan, Construct.core, Method.rule, swap, subtract, start,
    result, x, y]

theorem updates_swap {u : Update} (hu : u ∈ (swap width).updates) :
    (plan width).Updates u.target :=
  ⟨.rule (swap width), mem_constructs_plan.mpr (.inl rfl), u, hu, rfl⟩

theorem start_mem : .action (start width) (operands width) ∈ (plan width).methods :=
  List.mem_cons_self ..

theorem result_mem : .value (result width) (.uint width) (first width) ∈ (plan width).methods :=
  List.mem_cons_of_mem _ (List.mem_cons_self ..)

end

/-- What the registers hold after a cycle. -/
def advance (o : Offer) (a b : ℕ) : ℕ × ℕ :=
  if b = 0 then if o.enable then (o.first, o.second) else (a, b)
  else if b < a then (b, a)
  else (a, b - a)

namespace Begins

variable {w : ℕ} {names : StateNames} {env : Env} {a b : ℕ} {o : Offer}
  (h : Begins w names env a b o)

include h

theorem narrow : w ≤ 64 := h.high.trans (by decide)

theorem leaf_first :
    (leafReading names env).leaf (.state (x (.ofNat w))) = some ⟨a, w⟩ := by
  change (env (names.get (x (.ofNat w)))).map Value.number = _
  rw [get_x h.names, h.holds.first, Option.map_some, number_word h.high h.holds.first_lt]

theorem leaf_second :
    (leafReading names env).leaf (.state (y (.ofNat w))) = some ⟨b, w⟩ := by
  change (env (names.get (y (.ofNat w)))).map Value.number = _
  rw [get_y h.names, h.holds.second, Option.map_some, number_word h.high h.holds.second_lt]

theorem leaf_a :
    (leafReading names env).leaf (.argument (operand "a" (.ofNat w))) = some ⟨o.first, w⟩ := by
  change (env "start_a").map Value.number = _
  rw [h.offers.first, Option.map_some, number_word h.high h.offers.first_lt]

theorem leaf_b :
    (leafReading names env).leaf (.argument (operand "b" (.ofNat w))) = some ⟨o.second, w⟩ := by
  change (env "start_b").map Value.number = _
  rw [h.offers.second, Option.map_some, number_word h.high h.offers.second_lt]

theorem exact_first :
    (first (.ofNat w)).exact (leafReading names env) = ⟨a, w⟩ := by
  rw [first, Expr.exact, h.leaf_first, Option.getD_some]

theorem exact_second :
    (second (.ofNat w)).exact (leafReading names env) = ⟨b, w⟩ := by
  rw [second, Expr.exact, h.leaf_second, Option.getD_some]

theorem exact_a : (Expr.leaf (.argument (operand "a" (.ofNat w)))).exact (leafReading names env) =
    ⟨o.first, w⟩ := by
  rw [Expr.exact, h.leaf_a, Option.getD_some]

theorem exact_b : (Expr.leaf (.argument (operand "b" (.ofNat w)))).exact (leafReading names env) =
    ⟨o.second, w⟩ := by
  rw [Expr.exact, h.leaf_b, Option.getD_some]

theorem exact_zero :
    (zero (.ofNat w)).exact (leafReading names env) = ⟨0, w⟩ := by
  change (⟨0, if Int64.ofNat w = 0 then _ else (Int64.ofNat w).toNatClampNeg⟩ : Number) = _
  rw [if_neg (ofNat_ne_zero h.low h.high), toNatClampNeg_ofNat h.high]

theorem exact_outOfOrder :
    (swap (.ofNat w)).guard.exact (leafReading names env) = .ofBool (b < a && b ≠ 0) := by
  change Number.binary .and (.compare .gt _ _) (.compare .ne _ _) = _
  rw [h.exact_first, h.exact_second, h.exact_zero]
  exact and_ofBool _ _

theorem exact_inOrder :
    (subtract (.ofNat w)).guard.exact (leafReading names env) = .ofBool (a ≤ b && b ≠ 0) := by
  change Number.binary .and (.compare .le _ _) (.compare .ne _ _) = _
  rw [h.exact_first, h.exact_second, h.exact_zero]
  exact and_ofBool _ _

theorem exact_idle :
    (start (.ofNat w)).guard.exact (leafReading names env) = .ofBool (b = 0) := by
  change Number.compare .eq _ _ = _
  rw [h.exact_second, h.exact_zero]
  rfl

theorem exact_difference :
    ∃ n, (difference (.ofNat w)).exact (leafReading names env) = ⟨n, w⟩ ∧ (a ≤ b → n = b - a) := by
  change ∃ n, Number.tail (.binary .sub _ _) 1 = _ ∧ _
  rw [h.exact_first, h.exact_second]
  simp only [Number.tail, Number.binary, max_self, Nat.add_sub_cancel]
  refine ⟨_, rfl, fun hle => ?_⟩
  -- Nothing is borrowed, so that the bit cut off is not set.
  have hb := h.holds.second_lt
  have hpow : 2 ^ (w + 1) = 2 * 2 ^ w := Nat.pow_succ'
  have hmod : ((b : ℤ) - a) % 2 ^ (w + 1) = (b - a : ℕ) := by
    rw [Int.emod_eq_of_lt, Nat.cast_sub hle]
    · omega
    · have hcast : ((2 ^ (w + 1) : ℕ) : ℤ) = 2 ^ (w + 1) := by push_cast; rfl
      omega
  rw [hmod, Int.toNat_natCast, Nat.mod_eq_of_lt (by omega)]

/-! Everything evaluates -/

theorem evaluable_first :
    (first (.ofNat w)).Evaluable (leafReading names env) :=
  evaluable_leaf h.leaf_first h.narrow

theorem evaluable_second :
    (second (.ofNat w)).Evaluable (leafReading names env) :=
  evaluable_leaf h.leaf_second h.narrow

theorem evaluable_zero :
    (zero (.ofNat w)).Evaluable (leafReading names env) := by
  refine (Expr.evaluable_iff rfl).mpr ⟨⟨trivial, ?_⟩, trivial⟩
  rw [h.exact_zero]
  exact h.narrow

theorem evaluable_difference :
    (difference (.ofNat w)).Evaluable (leafReading names env) := by
  have hhigh := h.high
  have hsub : ((Expr.sub (second (.ofNat w)) (first (.ofNat w))).exact
      (leafReading names env)).width = w + 1 := by
    change (Number.binary .sub _ _).width = _
    rw [h.exact_first, h.exact_second]
    exact congrArg (· + 1) (max_self w)
  obtain ⟨n, hn, -⟩ := h.exact_difference
  refine (Expr.evaluable_iff rfl).mpr ⟨⟨?_, ?_⟩, ?_⟩
  · change (1 : ℤ) ≤ _
    rw [hsub]
    omega
  · rw [hn]
    exact h.narrow
  · refine (Expr.evaluable_iff rfl).mpr ⟨⟨trivial, ?_⟩, h.evaluable_second, h.evaluable_first⟩
    rw [hsub]
    omega

theorem evaluable_outOfOrder : (swap (.ofNat w)).guard.Evaluable (leafReading names env) :=
  evaluable_and (evaluable_compare rfl h.evaluable_first h.evaluable_second)
    (evaluable_compare rfl h.evaluable_second h.evaluable_zero)

theorem evaluable_inOrder : (subtract (.ofNat w)).guard.Evaluable (leafReading names env) :=
  evaluable_and (evaluable_compare rfl h.evaluable_first h.evaluable_second)
    (evaluable_compare rfl h.evaluable_second h.evaluable_zero)

theorem evaluable_idle :
    (start (.ofNat w)).guard.Evaluable (leafReading names env) :=
  evaluable_compare rfl h.evaluable_second h.evaluable_zero

theorem evaluates {c : Construct} (hc : c ∈ (plan (.ofNat w)).constructs) :
    Evaluates (leafReading names env) ((plan (.ofNat w)).guards c.name) c := by
  have houtOfOrder := congrArg Number.width h.exact_outOfOrder
  have hinOrder := congrArg Number.width h.exact_inOrder
  have hidle := congrArg Number.width h.exact_idle
  rcases mem_constructs_plan.mp hc with rfl | rfl | rfl | rfl
  · refine ⟨?_, ?_⟩
    · exact List.forall_mem_singleton.mpr ⟨h.evaluable_outOfOrder, houtOfOrder⟩
    · exact List.forall_mem_cons.mpr
        ⟨h.evaluable_second, List.forall_mem_singleton.mpr h.evaluable_first⟩
  · refine ⟨?_, ?_⟩
    · exact List.forall_mem_singleton.mpr ⟨h.evaluable_inOrder, hinOrder⟩
    · exact List.forall_mem_singleton.mpr h.evaluable_difference
  · refine ⟨?_, ?_⟩
    · exact List.forall_mem_singleton.mpr ⟨h.evaluable_idle, hidle⟩
    · exact List.forall_mem_cons.mpr ⟨evaluable_leaf h.leaf_a h.narrow,
        List.forall_mem_singleton.mpr (evaluable_leaf h.leaf_b h.narrow)⟩
  · refine ⟨?_, ?_⟩
    · exact List.forall_mem_singleton.mpr ⟨h.evaluable_idle, hidle⟩
    · exact List.forall_mem_singleton.mpr h.evaluable_first

theorem supplied :
    Supplied (plan (.ofNat w)) names ((plan (.ofNat w)).elaborated names) env where
  registers := by
    intro n hn
    rcases (mem_names h.names).mp hn with rfl | rfl
    · exact ⟨_, h.holds.first, wellFormed_word h.high h.holds.first_lt⟩
    · exact ⟨_, h.holds.second, wellFormed_word h.high h.holds.second_lt⟩
  inputs := by
    intro port hport hdir
    rw [ports_plan] at hport
    simp only [List.mem_cons, List.not_mem_nil, or_false] at hport
    rcases hport with rfl | rfl | rfl | rfl | rfl | rfl | rfl | rfl
    · exact h.offers.clock
    · exact ⟨_, h.offers.reset, by decide⟩
    · exact ⟨_, h.offers.enable, by cases o.enable <;> decide⟩
    · exact ⟨_, h.offers.first, wellFormed_word h.high h.offers.first_lt⟩
    · exact ⟨_, h.offers.second, wellFormed_word h.high h.offers.second_lt⟩
    · cases hdir
    · cases hdir
    · cases hdir
  enables := by
    intro c hc henable v hv
    rcases mem_constructs_plan.mp hc with rfl | rfl | rfl | rfl
    · cases henable
    · cases henable
    · cases h.offers.enable.symm.trans hv
      rfl
    · simp [Construct.ports, Port.input, Port.output] at henable

theorem setting :
    (plan (.ofNat w)).Setting names (plan (.ofNat w)).guards env where
  naming := naming_plan h.names
  closed := fun _ hc e he => ⟨(built_plan hc e he).within, (built_plan hc e he).refs_eq⟩
  coherent := by
    intro c hc
    have hwithin : ∀ e ∈ c.expressions, e.Within c.args :=
      fun e he => (built_plan hc e he).within
    have hguards : (plan (.ofNat w)).guards c.name = [c.core.guard] := by
      rcases mem_constructs_plan.mp hc with rfl | rfl | rfl | rfl <;> rfl
    rw [hguards]
    exact ⟨rfl, List.forall_mem_singleton.mpr (hwithin _ (List.mem_cons_self ..)), hwithin⟩
  registers := registers_names h.names
  modest := fun _ hc e he => (built_plan hc e he).modestShifts
  accepted := fun _ _ hmem =>
    accepted_of_check (admissible_plan h.names (ofNat_nonneg h.high)).check hmem
  supplied := h.supplied
  evaluates := fun _ hc => h.evaluates hc

/-! What fires -/

theorem ready_swap :
    decide (Ready (leafReading names env) ((plan (.ofNat w)).guards "swap")) = (b < a && b ≠ 0) :=
  ready_of_exact h.exact_outOfOrder

theorem ready_subtract :
    decide (Ready (leafReading names env) ((plan (.ofNat w)).guards "subtract")) =
      (a ≤ b && b ≠ 0) :=
  ready_of_exact h.exact_inOrder

theorem ready_start :
    decide (Ready (leafReading names env) ((plan (.ofNat w)).guards "start")) = decide (b = 0) :=
  ready_of_exact h.exact_idle

theorem fires_swap : decide ((plan (.ofNat w)).settled names env
    (Construct.rule (swap (.ofNat w))).firing = some (.ofBool true)) = (b < a && b ≠ 0) := by
  have hrules : (plan (.ofNat w)).rules = [] ++ swap (.ofNat w) :: [subtract (.ofNat w)] := rfl
  rw [h.setting.ruleFiring hrules, decide_ofBool, List.all_nil, Bool.and_true]
  exact h.ready_swap

theorem fires_subtract : decide ((plan (.ofNat w)).settled names env
    (Construct.rule (subtract (.ofNat w))).firing = some (.ofBool true)) = (a ≤ b && b ≠ 0) := by
  have hrules : (plan (.ofNat w)).rules = [swap (.ofNat w)] ++ subtract (.ofNat w) :: [] := rfl
  rw [h.setting.ruleFiring hrules, decide_ofBool, List.all_cons, List.all_nil, Bool.and_true]
  -- The rules are never ready together, so the priority of the swap takes nothing away.
  have hpriority : (decide (a ≤ b) && decide (b ≠ 0) && !(decide (b < a) && decide (b ≠ 0))) =
      (decide (a ≤ b) && decide (b ≠ 0)) := by grind
  rw [← hpriority, ← h.ready_swap, ← h.ready_subtract]
  rfl

theorem fires_start : decide ((plan (.ofNat w)).settled names env
    (Construct.method (.action (start (.ofNat w)) (operands (.ofNat w)))).firing =
      some (.ofBool true)) = (b = 0 && o.enable) := by
  have henable : decide (env "start_enable" = some (.ofBool true)) = o.enable := by
    rw [h.offers.enable, decide_ofBool]
  rw [h.setting.methodFiring start_mem (h.setting.actionMethod_signal start_mem), decide_ofBool,
    ← h.ready_start, ← henable]
  rfl

/-! What is stored -/

theorem next_x : (plan (.ofNat w)).next (leafReading names env)
    (fun c => (plan (.ofNat w)).settled names env c.firing = some (.ofBool true)) (x (.ofNat w)) =
      ⟨(advance o a b).1, w⟩ := by
  have hold : (Expr.leaf (.state (x (.ofNat w)))).exact (leafReading names env) = ⟨a, w⟩ :=
    h.exact_first
  simp only [Design.next, updatesOf_x, List.find?_cons, List.find?_nil, List.foldr_cons,
    List.foldr_nil, h.fires_swap, h.fires_start, hold, h.exact_a, h.exact_second, max_self]
  unfold advance
  by_cases hb : b = 0
  · cases henable : o.enable <;> simp [hb, h.exact_a]
  · by_cases hlt : b < a <;> simp [hb, hlt, h.exact_second]

theorem next_y : (plan (.ofNat w)).next (leafReading names env)
    (fun c => (plan (.ofNat w)).settled names env c.firing = some (.ofBool true)) (y (.ofNat w)) =
      ⟨(advance o a b).2, w⟩ := by
  have hold : (Expr.leaf (.state (y (.ofNat w)))).exact (leafReading names env) = ⟨b, w⟩ :=
    h.exact_second
  obtain ⟨n, hdifference, hn⟩ := h.exact_difference
  simp only [Design.next, updatesOf_y, List.find?_cons, List.find?_nil, List.foldr_cons,
    List.foldr_nil, h.fires_swap, h.fires_subtract, h.fires_start, hold, h.exact_b, h.exact_first,
    hdifference, max_self]
  unfold advance
  by_cases hb : b = 0
  · cases henable : o.enable <;> simp [hb, h.exact_b]
  · by_cases hlt : b < a
    · simp [hb, hlt, h.exact_first]
    · have hle := Nat.le_of_not_lt hlt
      simp [hb, hlt, hle, hdifference, hn hle]

/-- A cycle of the circuit is one step of the algorithm. -/
theorem stored :
    Holds w (((plan (.ofNat w)).elaborated names).next env) (advance o a b).1
      (advance o a b).2 := by
  have hx : (x (.ofNat w), "Gcd_x") ∈ names := (mem_names h.names).mpr (.inl rfl)
  have hy : (y (.ofNat w), "Gcd_y") ∈ names := (mem_names h.names).mpr (.inr rfl)
  obtain ⟨u, hu, huholds⟩ := h.setting.stores h.offers.reset hx
    (updates_swap (List.mem_cons_self ..))
  obtain ⟨v, hv, hvholds⟩ := h.setting.stores h.offers.reset hy
    (updates_swap (List.mem_cons_of_mem _ (List.mem_cons_self ..)))
  rw [h.next_x] at huholds
  rw [h.next_y] at hvholds
  refine ⟨?_, ?_, huholds.fits, hvholds.fits⟩
  · rw [hu, eq_word_of_holds h.high huholds]
  · rw [hv, eq_word_of_holds h.high hvholds]

/-! What the outputs show -/

theorem result_ready :
    ((plan (.ofNat w)).elaborated names).settled env "result_ready" =
      some (.ofBool (b = 0)) := by
  have hready : decide (Ready (leafReading names env) ((plan (.ofNat w)).guards "result")) =
      decide (b = 0) := ready_of_exact h.exact_idle
  rw [← hready]
  exact h.setting.ready result_mem

theorem result_value :
    ((plan (.ofNat w)).elaborated names).settled env "result_value" = some (word w a) := by
  obtain ⟨v, hv, hholds⟩ := h.setting.result result_mem
  rw [h.exact_first] at hholds
  rw [← eq_word_of_holds h.high hholds]
  exact hv

end Begins

/-! Runs -/

/-- What the registers hold at the start of each cycle. -/
def trace (offers : ℕ → Offer) (a b : ℕ) : ℕ → ℕ × ℕ
  | 0 => (a, b)
  | n + 1 => advance (offers n) (trace offers a b n).1 (trace offers a b n).2

theorem mem_registers {width : Int64} {names : StateNames} (hnames : names.Perm (labels width))
    {x : String} : x ∈ ((plan width).elaborated names).registers ↔ x = "Gcd_x" ∨ x = "Gcd_y" := by
  rw [registers_elaborated (registers_names hnames), (hnames.map Prod.snd).mem_iff]
  exact List.mem_pair

section

variable {w : ℕ} {names : StateNames} (hlow : 1 ≤ w) (hhigh : w ≤ 63)
  (hnames : names.Perm (labels (.ofNat w)))

include hlow hhigh hnames

theorem begins_supply {stored inputs : Env} {a b : ℕ} {o : Offer} (hholds : Holds w stored a b)
    (hoffers : Offers w inputs o) :
    Begins w names (((plan (.ofNat w)).elaborated names).supply stored inputs) a b o := by
  have hregister : ∀ x, x = "Gcd_x" ∨ x = "Gcd_y" →
      ((plan (.ofNat w)).elaborated names).supply stored inputs x = stored x :=
    fun x hx => Module.supply_register ((mem_registers hnames).mpr hx)
  have hinput : ∀ x, ¬ (x = "Gcd_x" ∨ x = "Gcd_y") →
      ((plan (.ofNat w)).elaborated names).supply stored inputs x = inputs x :=
    fun x hx => Module.supply_input (mt (mem_registers hnames).mp hx)
  refine ⟨hlow, hhigh, hnames, ⟨?_, ?_, hholds.first_lt, hholds.second_lt⟩, ?_⟩
  · rw [hregister _ (by decide), hholds.first]
  · rw [hregister _ (by decide), hholds.second]
  · obtain ⟨hclock, hreset, henable, hfirst, hsecond, hfirst_lt, hsecond_lt⟩ := hoffers
    refine ⟨?_, ?_, ?_, ?_, ?_, hfirst_lt, hsecond_lt⟩ <;> rw [hinput _ (by decide)] <;> assumption

/-- The registers hold the numbers of the trace. -/
theorem begins_cycle {state : Env} {inputs : ℕ → Env} {offers : ℕ → Offer} {a b : ℕ}
    (hholds : Holds w state a b) (hoffers : ∀ n, Offers w (inputs n) (offers n)) (n : ℕ) :
    Begins w names (((plan (.ofNat w)).elaborated names).cycle state inputs n)
      (trace offers a b n).1 (trace offers a b n).2 (offers n) := by
  induction n with
  | zero => exact begins_supply hlow hhigh hnames hholds (hoffers 0)
  | succ n ih => exact begins_supply hlow hhigh hnames ih.stored (hoffers (n + 1))

end

theorem gcd_advance {o : Offer} {a b : ℕ} (hb : b ≠ 0) :
    Nat.gcd (advance o a b).1 (advance o a b).2 = Nat.gcd a b := by
  unfold advance
  rw [if_neg hb]
  split_ifs with hlt
  · exact Nat.gcd_comm b a
  · exact Nat.gcd_sub_self_right (Nat.le_of_not_lt hlt)

/-- Until the second number is zero, the greatest common divisor is that of the operands. -/
theorem gcd_trace {offers : ℕ → Offer} {a b : ℕ} (hstart : offers 0 = ⟨true, a, b⟩) (x₀ n : ℕ)
    (hbusy : ∀ k < n, (trace offers x₀ 0 (k + 1)).2 ≠ 0) :
    Nat.gcd (trace offers x₀ 0 (n + 1)).1 (trace offers x₀ 0 (n + 1)).2 = Nat.gcd a b := by
  induction n with
  | zero =>
    rw [trace, trace, hstart]
    rfl
  | succ n ih =>
    rw [trace, gcd_advance (hbusy n n.lt_succ_self)]
    exact ih fun k hk => hbusy k (Nat.lt_succ_of_lt hk)

/-- The circuit computes the greatest common divisor. It is started on `a` and `b` when the second
register is zero; after that anything may be offered. In each cycle up to the first in which the
result is ready, the numbers in the registers have the greatest common divisor of `a` and `b`, and
in that cycle the result is this divisor. -/
theorem circuit_computes (w : ℕ) (hlow : 1 ≤ w) (hhigh : w ≤ 63) :
    ∃ m, circuit (.ofNat w) = .ok ⟨"Gcd", [m]⟩ ∧
      ∀ (state : Env) (inputs : ℕ → Env) (offers : ℕ → Offer) (x₀ a b : ℕ),
        Holds w state x₀ 0 → (∀ n, Offers w (inputs n) (offers n)) → offers 0 = ⟨true, a, b⟩ →
        ∀ n, (∀ k < n, m.settled (m.cycle state inputs (k + 1)) "result_ready" ≠
            some (.ofBool true)) →
          ∃ x y, Holds w (m.cycle state inputs (n + 1)) x y ∧ Nat.gcd x y = Nat.gcd a b ∧
            m.settled (m.cycle state inputs (n + 1)) "result_ready" = some (.ofBool (y = 0)) ∧
            (m.settled (m.cycle state inputs (n + 1)) "result_ready" = some (.ofBool true) →
              m.settled (m.cycle state inputs (n + 1)) "result_value" =
                some (word w (Nat.gcd a b))) := by
  obtain ⟨names, hcircuit, hnames⟩ := circuit_eq (ofNat_nonneg hhigh)
  refine ⟨_, hcircuit, fun state inputs offers x₀ a b hholds hoffers hstart n hwait => ?_⟩
  have hbegins := begins_cycle hlow hhigh hnames hholds hoffers
  have hbusy : ∀ k < n, (trace offers x₀ 0 (k + 1)).2 ≠ 0 := by
    intro k hk hzero
    apply hwait k hk
    rw [(hbegins (k + 1)).result_ready, hzero]
    rfl
  have hgcd := gcd_trace hstart x₀ n hbusy
  refine ⟨_, _, (hbegins (n + 1)).holds, hgcd, (hbegins (n + 1)).result_ready, fun hready => ?_⟩
  rw [(hbegins (n + 1)).result_ready] at hready
  have hzero : (trace offers x₀ 0 (n + 1)).2 = 0 :=
    of_decide_eq_true ((decide_ofBool _).symm.trans (decide_eq_true hready))
  rw [hzero, Nat.gcd_zero_right] at hgcd
  rw [(hbegins (n + 1)).result_value, hgcd]

/-! A run in which further operands are offered all the time. They are not taken before the result
is there. -/

namespace Busy

def offers : ℕ → Offer
  | 0 => ⟨true, 6, 3⟩
  | _ + 1 => ⟨true, 5, 2⟩

def inputs (n : ℕ) : Env :=
  ((((Env.empty.bind "clk" ⟨0, 1⟩).bind "reset" ⟨0, 1⟩).bind "start_enable"
    (.ofBool (offers n).enable)).bind "start_a" (word 4 (offers n).first)).bind "start_b"
    (word 4 (offers n).second)

def state : Env := (Env.empty.bind "Gcd_x" (word 4 9)).bind "Gcd_y" (word 4 0)

end Busy

theorem circuit_computes_busy :
    Holds 4 Busy.state 9 0 ∧ (∀ n, Offers 4 (Busy.inputs n) (Busy.offers n)) ∧
    ∃ m, circuit (.ofNat 4) = .ok ⟨"Gcd", [m]⟩ ∧
      m.settled (m.cycle Busy.state Busy.inputs 3) "result_ready" = some (.ofBool false) ∧
      m.settled (m.cycle Busy.state Busy.inputs 4) "result_ready" = some (.ofBool true) ∧
      m.settled (m.cycle Busy.state Busy.inputs 4) "result_value" = some (word 4 3) := by
  have hholds : Holds 4 Busy.state 9 0 := ⟨by decide, by decide, by decide, by decide⟩
  have hoffers : ∀ n, Offers 4 (Busy.inputs n) (Busy.offers n) := by
    intro n
    cases n with
    | zero => exact ⟨⟨⟨0, 1⟩, rfl, by decide⟩, rfl, rfl, rfl, rfl, by decide, by decide⟩
    | succ n =>
      exact ⟨⟨⟨0, 1⟩, rfl, by decide⟩, rfl, rfl, rfl, rfl, (by decide : 5 < 2 ^ 4),
        (by decide : 2 < 2 ^ 4)⟩
  obtain ⟨m, hm, hrun⟩ := circuit_computes 4 (by decide) (by decide)
  obtain ⟨names, hcircuit, hnames⟩ := circuit_eq (ofNat_nonneg (by decide : 4 ≤ 63))
  have hsame : m = (plan (.ofNat 4)).elaborated names := by
    rw [hm, Except.ok.injEq, Circuit.mk.injEq, List.cons.injEq] at hcircuit
    exact hcircuit.2.1
  have hready : ∀ n, m.settled (m.cycle Busy.state Busy.inputs n) "result_ready" =
      some (.ofBool ((trace Busy.offers 9 0 n).2 = 0)) := by
    intro n
    rw [hsame]
    exact (begins_cycle (by decide) (by decide) hnames hholds hoffers n).result_ready
  have hwait : ∀ k < 3, m.settled (m.cycle Busy.state Busy.inputs (k + 1)) "result_ready" ≠
      some (.ofBool true) := by
    intro k hk
    rw [hready]
    revert k
    decide
  obtain ⟨x, y, -, -, -, hvalue⟩ :=
    hrun Busy.state Busy.inputs Busy.offers 9 6 3 hholds hoffers rfl 3 hwait
  exact ⟨hholds, hoffers, m, hm, hready 3, hready 4, hvalue (hready 4)⟩

end Gcd

end GuardedRtl
