import GuardedRtl.Proofs.Cycle
import GuardedRtl.Proofs.Range

/-! What drives a wire. A wire is valid in the cycles in which some construct that updates it fires,
and then it has the value that the first of them gives. The last driver is the default of the chain of
multiplexers, so that the chain alone says nothing when none fires: it is the condition of validity,
a chain of its own, that makes the wire zero then. Main statement: `elaborate_wire`. -/

namespace GuardedRtl

open Rtl

/-! Chains over well-formed values -/

section

variable {env : Env}

theorem mux_wellFormed {s a b : Expr} {k x y : Value} (hs : s.value env = .ok k) (hk : k.WellFormed)
    (ha : a.value env = .ok x) (hx : x.WellFormed) (hb : b.value env = .ok y) (hy : y.WellFormed) :
    ∃ z, (Expr.mux s a b).value env = .ok z ∧ z.WellFormed ∧
      z.bits = if k.isSet then x.bits else y.bits := by
  refine ⟨⟨if k.isSet then x.bits else y.bits, max x.width y.width⟩, ?_, ?_, rfl⟩
  · rw [Expr.value, hs, ha, hb]
    rfl
  · exact (mux_agrees hx.holds hy.holds hk.holds).ranged _ rfl

theorem or_wellFormed {a b : Expr} {x y : Value} (ha : a.value env = .ok x) (hx : x.WellFormed)
    (hb : b.value env = .ok y) (hy : y.WellFormed) :
    ∃ z, (Expr.or a b).value env = .ok z ∧ z.WellFormed ∧ (z.isSet ↔ x.isSet ∨ y.isSet) := by
  refine ⟨⟨x.bits ||| y.bits, max x.width y.width⟩, ?_, ?_, ?_⟩
  · rw [Expr.or, Expr.value, ha, hb]
    rfl
  · exact (or_agrees hx.holds hy.holds).ranged _ rfl
  · simp only [Value.isSet, bne_iff_ne, ne_eq, UInt64.or_eq_zero_iff]
    exact not_and_or

theorem validIf_wellFormed {c a : Expr} {k x : Value} (hc : c.value env = .ok k) (hk : k.WellFormed)
    (ha : a.value env = .ok x) (hx : x.WellFormed) :
    ∃ z, (Expr.validIf c a).value env = .ok z ∧ z.WellFormed ∧
      z.bits = if k.isSet then x.bits else 0 := by
  refine ⟨⟨if k.isSet then x.bits else 0, x.width⟩, ?_, ?_, rfl⟩
  · rw [Expr.value, hc, ha]
    rfl
  · exact (validIf_agrees hx.holds hk.holds).ranged _ rfl

/-- Of a value in range nothing is cut off at the end. -/
theorem value_of_eval {e : Expr} {v : Value} (hranged : Ranged (e.value env))
    (heval : e.eval env = .ok v) : e.value env = .ok v ∧ v.WellFormed := by
  obtain ⟨-, u, hu, rfl⟩ := eval_eq_ok.mp heval
  have hwell := hranged u hu
  rw [mask_of_holds hwell.holds]
  exact ⟨hu, hwell⟩

variable {α : Type} {driver : α → Driver} {fires given : α → Value}

/-- Whether something fires is a chain of disjunctions that begins with `e`. -/
theorem firingChain_value {us : List α}
    (hfires : ∀ u ∈ us, (driver u).firing.value env = .ok (fires u) ∧ (fires u).WellFormed) :
    ∀ {e : Expr} {x : Value}, e.value env = .ok x → x.WellFormed →
      ∃ z, ((us.map driver).foldl (fun e d => .or e d.firing) e).value env = .ok z ∧ z.WellFormed ∧
        (z.isSet ↔ x.isSet ∨ ∃ u ∈ us, (fires u).isSet) := by
  induction us with
  | nil =>
    intro e x he hx
    exact ⟨x, he, hx, by simp⟩
  | cons u us ih =>
    intro e x he hx
    obtain ⟨⟨hvalue, hwell⟩, hrest⟩ := List.forall_mem_cons.mp hfires
    obtain ⟨y, hy, hywell, hyset⟩ := or_wellFormed he hx hvalue hwell
    obtain ⟨z, hz, hzwell, hzset⟩ := ih hrest hy hywell
    refine ⟨z, hz, hzwell, ?_⟩
    rw [hzset, hyset, or_assoc]
    simp only [List.mem_cons, exists_eq_or_imp]

theorem anyFiring_value {u : α} {us : List α}
    (hfires : ∀ w ∈ u :: us, (driver w).firing.value env = .ok (fires w) ∧ (fires w).WellFormed) :
    ∃ z, (anyFiring (driver u) (us.map driver)).value env = .ok z ∧ z.WellFormed ∧
      (z.isSet ↔ ∃ w ∈ u :: us, (fires w).isSet) := by
  obtain ⟨⟨hvalue, hwell⟩, hrest⟩ := List.forall_mem_cons.mp hfires
  obtain ⟨z, hz, hzwell, hzset⟩ := firingChain_value hrest hvalue hwell
  refine ⟨z, hz, hzwell, ?_⟩
  simp only [hzset, List.mem_cons, exists_eq_or_imp]

/-- Where some driver fires, the chain has the bits of the first that does. -/
theorem selectLast_value {us : List α} : ∀ {u : α},
    (∀ w ∈ u :: us, (driver w).firing.value env = .ok (fires w) ∧ (fires w).WellFormed) →
    (∀ w ∈ u :: us, (driver w).value.value env = .ok (given w) ∧ (given w).WellFormed) →
    ∃ z, (selectLast (driver u) (us.map driver)).value env = .ok z ∧ z.WellFormed ∧
      ∀ w, (u :: us).find? (fun w => (fires w).isSet) = some w → z.bits = (given w).bits := by
  induction us with
  | nil =>
    intro u _ hgiven
    obtain ⟨hvalue, hwell⟩ := List.forall_mem_singleton.mp hgiven
    refine ⟨given u, hvalue, hwell, fun w hw => ?_⟩
    rw [List.mem_singleton.mp (List.mem_of_find?_eq_some hw)]
  | cons next us ih =>
    intro u hfires hgiven
    obtain ⟨⟨hfire, hfirewell⟩, hfires⟩ := List.forall_mem_cons.mp hfires
    obtain ⟨⟨hvalue, hwell⟩, hgiven⟩ := List.forall_mem_cons.mp hgiven
    obtain ⟨y, hy, hywell, hybits⟩ := ih hfires hgiven
    obtain ⟨z, hz, hzwell, hzbits⟩ := mux_wellFormed hfire hfirewell hvalue hwell hy hywell
    refine ⟨z, hz, hzwell, fun w hw => ?_⟩
    rw [hzbits]
    by_cases hset : (fires u).isSet
    · rw [List.find?_cons_of_pos (by exact hset), Option.some.injEq] at hw
      rw [if_pos hset, hw]
    · rw [List.find?_cons_of_neg (by exact hset)] at hw
      rw [if_neg hset]
      exact hybits w hw

/-- A wire has the bits that the first firing driver gives, and none where no driver fires. -/
theorem wireDriver_value {u : α} {us : List α}
    (hfires : ∀ w ∈ u :: us, (driver w).firing.value env = .ok (fires w) ∧ (fires w).WellFormed)
    (hgiven : ∀ w ∈ u :: us, (driver w).value.value env = .ok (given w) ∧ (given w).WellFormed) :
    ∃ z, (Expr.validIf (anyFiring (driver u) (us.map driver))
        (selectLast (driver u) (us.map driver))).value env = .ok z ∧ z.WellFormed ∧
      z.bits = (((u :: us).find? fun w => (fires w).isSet).map fun w => (given w).bits).getD 0 := by
  obtain ⟨k, hk, hkwell, hkset⟩ := anyFiring_value hfires
  obtain ⟨x, hx, hxwell, hxbits⟩ := selectLast_value hfires hgiven
  obtain ⟨z, hz, hzwell, hzbits⟩ := validIf_wellFormed hk hkwell hx hxwell
  refine ⟨z, hz, hzwell, ?_⟩
  rw [hzbits]
  cases hfind : (u :: us).find? fun w => (fires w).isSet with
  | none =>
    rw [List.find?_eq_none] at hfind
    rw [if_neg]
    · rfl
    · rw [hkset]
      rintro ⟨w, hw, hset⟩
      exact hfind w hw hset
  | some w =>
    have hset : (fires w).isSet := by simpa using List.find?_some hfind
    rw [if_pos (hkset.mpr ⟨w, List.mem_of_find?_eq_some hfind, hset⟩)]
    exact hxbits w hfind

end

/-! The connection of a wire -/

/-- What is driven once has one connection. -/
theorem connections_filter {ss : List Stmt} (honce : (ss.flatMap Stmt.driven).Nodup) {x : String}
    {rhs : Expr} (hmem : .connect x rhs ∈ ss) :
    (connections ss).filter (fun c => c.1 = x) = [(x, rhs)] := by
  rw [← connections_fst] at honce
  have hmem := mem_connections.mpr hmem
  apply List.perm_singleton.mp
  rw [List.perm_ext_iff_of_nodup (honce.of_map.filter _) (List.nodup_singleton _)]
  intro c
  rw [List.mem_filter, List.mem_singleton, decide_eq_true_iff]
  constructor
  · rintro ⟨hc, hx⟩
    exact List.inj_on_of_nodup_map honce hc hmem hx
  · rintro rfl
    exact ⟨hmem, rfl⟩

/-- What an update of an element contributes to its connection. -/
def driverOf (names : StateNames) (s : State) (u : Construct × Expr) : Driver :=
  ⟨s, .ref u.1.firing, renamed names u.2⟩

theorem wire_mem_statements {d : Design} {names : StateNames} {s : State} {x : String}
    (hn : (s, x) ∈ names) (hwire : s.storage = .wire) {u : Construct × Expr}
    {us : List (Construct × Expr)} (hus : d.updatesOf s = u :: us) :
    .connect x (.validIf (anyFiring (driverOf names s u) (us.map (driverOf names s)))
      (selectLast (driverOf names s u) (us.map (driverOf names s)))) ∈
      (d.elaborated names).statements := by
  rw [statements_elaborated]
  refine List.mem_append_right _ (List.mem_flatMap.mpr ⟨(s, x), hn, ?_⟩)
  rw [Design.Setting.drivers_eq, hus, List.map_cons, driveState]
  simp only [hwire, List.mem_singleton]
  rfl

theorem updatesOf_ne_nil {d : Design} {s : State} (h : d.Updates s) : d.updatesOf s ≠ [] := by
  obtain ⟨c, hc, u, hu, rfl⟩ := h
  refine List.ne_nil_of_mem (a := (c, u.value)) (List.mem_flatMap.mpr ⟨c, hc, ?_⟩)
  exact List.mem_map.mpr ⟨u, List.mem_filter.mpr ⟨hu, by simp⟩, rfl⟩

/-- In the circuit of a design, a wire that is updated has one connection. Wherever the firing signals
and the lowered values of its updates evaluate, and these values are in range before they are cut to
their width, the wire is valid exactly when some of the signals is set, and it has the bits of the
update whose signal is the first to be set, or none. -/
theorem elaborate_wire (d : Design) (circuit : Circuit) (m : Module) (names : StateNames) (s : State)
    (x : String) (env : Env) (fires : Construct → Value) (given : Construct × Expr → Value)
    (henv : ∀ y v, env y = some v → v.WellFormed) (helaborate : d.elaborate = .ok circuit)
    (hmodule : circuit.modules = [m]) (hnames : d.stateNames = .ok names) (hn : (s, x) ∈ names)
    (hwire : s.storage = .wire) (hupdates : d.Updates s)
    (hfires : ∀ u ∈ d.updatesOf s, (Expr.ref u.1.firing).eval env = .ok (fires u.1))
    (hgiven : ∀ u ∈ d.updatesOf s, ∃ e, lowerExpr names u.2 = .ok e ∧ e.eval env = .ok (given u) ∧
      Ranged (e.value env)) :
    ∃ valid value,
      (connections m.statements).filter (fun c => c.1 = x) = [(x, .validIf valid value)] ∧
      (∃ k, valid.eval env = .ok k ∧ (k.isSet ↔ ∃ u ∈ d.updatesOf s, (fires u.1).isSet)) ∧
      ∃ v, (Expr.validIf valid value).eval env = .ok v ∧
        v.bits = match (d.updatesOf s).find? fun u => (fires u.1).isSet with
          | some u => (given u).bits
          | none => 0 := by
  obtain ⟨names', hnames', hnaming, rfl, hcheck⟩ := Design.elaborate_naming helaborate
  rw [hnames] at hnames'
  cases hnames'
  cases hmodule
  obtain ⟨u, us, hus⟩ := List.exists_cons_of_ne_nil (updatesOf_ne_nil hupdates)
  have hmem := wire_mem_statements hn hwire hus
  obtain ⟨-, hacc⟩ := accepted_of_check hcheck hmem
  rw [hus] at hfires hgiven ⊢
  have hsignals : ∀ w ∈ u :: us, (driverOf names s w).firing.value env = .ok (fires w.1) ∧
      (fires w.1).WellFormed := by
    intro w hw
    exact value_of_eval (ref_ranged henv _) (hfires w hw)
  have hvalues : ∀ w ∈ u :: us, (driverOf names s w).value.value env = .ok (given w) ∧
      (given w).WellFormed := by
    intro w hw
    obtain ⟨e, he, heval, hranged⟩ := hgiven w hw
    rw [(lowerExpr_eq_ok.mp he).2] at heval hranged
    exact value_of_eval hranged heval
  refine ⟨_, _, connections_filter hnaming.driven_nodup hmem, ?_, ?_⟩
  · obtain ⟨k, hk, hwell, hset⟩ := anyFiring_value hsignals
    have hvalid := ((Expr.accepted_validIf _ _).mp hacc).2.1
    exact ⟨k, eval_of_holds hvalid hk hwell.holds, hset⟩
  · obtain ⟨v, hv, hwell, hbits⟩ := wireDriver_value hsignals hvalues
    refine ⟨v, eval_of_holds hacc hv hwell.holds, ?_⟩
    rw [hbits]
    cases (u :: us).find? fun w => (fires w.1).isSet <;> rfl

theorem bind_wellFormed {env : Env} (henv : ∀ y v, env y = some v → v.WellFormed) {x : String}
    {u : Value} (hu : u.WellFormed) : ∀ y v, env.bind x u y = some v → v.WellFormed := by
  intro y v hv
  unfold Env.bind at hv
  split_ifs at hv
  · cases hv
    exact hu
  · exact henv y v hv

/-! Three constructs that give a wire values of different widths. The rule that comes first does not
fire, and the signal of the second is set without being one. -/

namespace Bypass

def port : State := ⟨0, .wire, "port", .uint 8⟩

def operand : Argument := ⟨0, "put", "v", .uint 8⟩

def design : Design where
  name := "B"
  state := [port]
  rules := [
    ⟨"idle", .one, [], [⟨port, .unsigned 9 16⟩]⟩,
    ⟨"fill", .one, [], [⟨port, .unsigned 5 4⟩]⟩]
  methods := [.action ⟨"put", .one, [], [⟨port, .leaf (.argument operand)⟩]⟩ [operand]]

def names : StateNames := [(port, "B_port")]

def env : Env :=
  (((Env.empty.bind "idle_firing" ⟨0, 1⟩).bind "fill_firing" ⟨2, 3⟩).bind "put_firing" ⟨1, 1⟩).bind
    "put_v" ⟨7, 8⟩

def fires (c : Construct) : Value := (env c.firing).getD ⟨0, 0⟩

def given (u : Construct × Expr) : Value :=
  match (renamed names u.2).eval env with
  | .ok v => v
  | .error _ => ⟨0, 0⟩

end Bypass

theorem elaborate_wire_bypass :
    Bypass.design.elaborate = .ok ⟨"B", [Bypass.design.elaborated Bypass.names]⟩ ∧
    ∃ valid value,
      (connections (Bypass.design.elaborated Bypass.names).statements).filter
        (fun c => c.1 = "B_port") = [("B_port", .validIf valid value)] ∧
      (∃ k, valid.eval Bypass.env = .ok k ∧ k.isSet) ∧
      ∃ v, (Expr.validIf valid value).eval Bypass.env = .ok v ∧ v.bits = 5 := by
  have helaborate : Bypass.design.elaborate =
      .ok ⟨"B", [Bypass.design.elaborated Bypass.names]⟩ := by decide +kernel
  have henv : ∀ y v, Bypass.env y = some v → v.WellFormed := by
    refine bind_wellFormed (bind_wellFormed (bind_wellFormed (bind_wellFormed ?_ ?_) ?_) ?_) ?_
    · intro y v hv
      cases hv
    all_goals decide
  have heval : ∀ u ∈ Bypass.design.updatesOf Bypass.port,
      lowerExpr Bypass.names u.2 = .ok (renamed Bypass.names u.2) ∧
      (renamed Bypass.names u.2).eval Bypass.env = .ok (Bypass.given u) := by decide +kernel
  -- none of the values has a shift, so all of them are in range
  have hgiven : ∀ u ∈ Bypass.design.updatesOf Bypass.port, ∃ e, lowerExpr Bypass.names u.2 = .ok e ∧
      e.eval Bypass.env = .ok (Bypass.given u) ∧ Ranged (e.value Bypass.env) := by
    intro u hu
    obtain ⟨hlower, hvalue⟩ := heval u hu
    refine ⟨_, hlower, hvalue, value_ranged henv _ (eval_eq_ok.mp hvalue).1 ?_⟩
    change u ∈ [_, _, _] at hu
    fin_cases hu <;> exact List.forall_mem_singleton.mpr trivial
  obtain ⟨valid, value, honce, ⟨k, hk, hset⟩, v, hv, hbits⟩ :=
    elaborate_wire Bypass.design ⟨"B", [Bypass.design.elaborated Bypass.names]⟩
      (Bypass.design.elaborated Bypass.names) Bypass.names Bypass.port "B_port" Bypass.env
      Bypass.fires Bypass.given henv helaborate rfl (by decide +kernel) (by decide +kernel) rfl
      (by decide +kernel) (by decide +kernel) hgiven
  refine ⟨helaborate, valid, value, honce, ⟨k, hk, hset.mpr (by decide +kernel)⟩, v, hv, ?_⟩
  rw [hbits]
  decide +kernel

/-! A value that is cut off late. A static shift without room has a negative width, and no mask cuts
anything off to a negative width: the complement of such a shift has all 64 bits set, in a width that
any other operand exceeds. Evaluated by itself the value is eight bits wide, but in the chain of a
wider driver sixteen of its bits are left. -/

namespace Spill

def port : State := ⟨0, .wire, "port", .uint 16⟩

def spilling : Expr :=
  .or (.not (.shiftLeft (.unsigned 1 1) 9223372036854775807 .absent)) (.unsigned 0 8)

def design : Design where
  name := "S"
  state := [port]
  rules := [
    ⟨"spill", .one, [], [⟨port, spilling⟩]⟩,
    ⟨"fill", .one, [], [⟨port, .unsigned 1 16⟩]⟩]
  methods := []

def names : StateNames := [(port, "S_port")]

def env : Env := (Env.empty.bind "spill_firing" ⟨1, 1⟩).bind "fill_firing" ⟨0, 1⟩

end Spill

theorem wire_spills :
    Spill.design.elaborate = .ok ⟨"S", [Spill.design.elaborated Spill.names]⟩ ∧
    (∀ y v, Spill.env y = some v → v.WellFormed) ∧
    Spill.design.updatesOf Spill.port =
      [(.rule ⟨"spill", .one, [], [⟨Spill.port, Spill.spilling⟩]⟩, Spill.spilling),
        (.rule ⟨"fill", .one, [], [⟨Spill.port, .unsigned 1 16⟩]⟩, .unsigned 1 16)] ∧
    lowerExpr Spill.names Spill.spilling = .ok Spill.spilling ∧
    Spill.spilling.eval Spill.env = .ok ⟨255, 8⟩ ∧ (⟨255, 8⟩ : Value).WellFormed ∧
    ((connections (Spill.design.elaborated Spill.names).statements).filter
      fun c => c.1 = "S_port").map (fun c => c.2.eval Spill.env) = [.ok ⟨65535, 16⟩] := by
  refine ⟨by decide +kernel, bind_wellFormed (bind_wellFormed ?_ (by decide)) (by decide), ?_⟩
  · intro y v hv
    cases hv
  · decide +kernel

end GuardedRtl
