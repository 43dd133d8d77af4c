import GuardedRtl.Proofs.Cycle

/-! Modules from cycle to cycle. A cycle starts with what the registers store and with values on the
inputs; when it is over, a register stores what drives it or, while its reset is set, its reset
value. In the circuit of a design that is the next value of its element
(`Design.Setting.stores`). -/

namespace GuardedRtl

open Rtl

namespace Rtl

/-- The registers that a statement declares. -/
def Stmt.registers : Stmt → List String
  | .register name _ _ _ => [name]
  | _ => []

/-- What a register takes on because its reset is set. -/
def Stmt.resetTo (settled : Env) (x : String) : Stmt → Option Value
  | .register name _ _ (some reset) =>
    if name = x ∧ reset.enable.eval settled = .ok (.ofBool true) then
      (reset.value.eval settled).toOption
    else none
  | _ => none

namespace Module

def registers (m : Module) : List String := m.statements.flatMap Stmt.registers

/-- The values at the end of a cycle, when the registers still have their old ones. -/
def settled (m : Module) (env : Env) : Env := (Settling.run ⟨[], env⟩ m.statements).1.env

/-- What a register stores when the cycle is over. One that nothing drives keeps its value. -/
def next (m : Module) (env : Env) : Env := fun x =>
  match m.statements.findSome? (Stmt.resetTo (m.settled env) x), (m.settle env).lookup x with
  | some v, _ => some v
  | none, some outcome => outcome.toOption
  | none, none => env x

/-- The values at the start of a cycle. -/
def supply (m : Module) (stored inputs : Env) : Env := fun x =>
  if x ∈ m.registers then stored x else inputs x

/-- The values at the start of each cycle of a run. -/
def cycle (m : Module) (stored : Env) (inputs : ℕ → Env) : ℕ → Env
  | 0 => m.supply stored (inputs 0)
  | n + 1 => m.supply (m.next (m.cycle stored inputs n)) (inputs (n + 1))

theorem supply_register {m : Module} {stored inputs : Env} {x : String} (h : x ∈ m.registers) :
    m.supply stored inputs x = stored x :=
  if_pos h

theorem supply_input {m : Module} {stored inputs : Env} {x : String} (h : x ∉ m.registers) :
    m.supply stored inputs x = inputs x :=
  if_neg h

end Module

end Rtl

theorem lookup_of_unique {β : Type} {l : List (String × β)} {x : String} {b : β}
    (h : ∀ o, (x, o) ∈ l ↔ o = b) : l.lookup x = some b := by
  induction l with
  | nil => exact absurd ((h b).mpr rfl) List.not_mem_nil
  | cons p l ih =>
    obtain ⟨y, o⟩ := p
    by_cases hy : x = y
    · subst hy
      rw [List.lookup_cons_self, (h o).mp (List.mem_cons_self ..)]
    · rw [List.lookup_cons, beq_false_of_ne hy]
      refine ih fun o' => ?_
      rw [← h o', List.mem_cons, Prod.mk.injEq]
      exact (or_iff_right fun heq => hy heq.1).symm

section

variable {d : Design} {names : StateNames}

theorem registers_declaration {n : State × String} (h : ∃ reset, n.1.storage = .register reset) :
    (declaration n).registers = [n.2] := by
  obtain ⟨reset, hreset⟩ := h
  rw [declaration, declareState, hreset]
  rfl

theorem registers_elaborated (h : ∀ n ∈ names, ∃ reset, n.1.storage = .register reset) :
    (d.elaborated names).registers = names.map Prod.snd := by
  have hbody : (d.body names).flatMap Stmt.registers = [] := by
    rw [List.flatMap_eq_nil_iff]
    intro s hs
    cases s with
    | register name type clock reset =>
      exact absurd hs (register_not_mem_body name type clock reset)
    | _ => rfl
  rw [Module.registers, statements_body, List.flatMap_append, hbody, List.append_nil,
    List.flatMap_map, List.map_eq_flatMap]
  exact List.flatMap_congr fun n hn => registers_declaration (h n hn)

/-- Nothing is reset while the reset input is low. -/
theorem resetTo_declaration {settled : Env} (hlow : settled resetName = some (.ofBool false))
    (x : String) (n : State × String) : (declaration n).resetTo settled x = none := by
  have henable : (Expr.ref resetName).eval settled = .ok (.ofBool false) :=
    Schedule.eval_of_value_ofBool (by decide) (Design.Setting.ref_value hlow)
  rw [declaration, declareState]
  cases n.1.storage with
  | wire => rfl
  | foreign kind => rfl
  | register reset =>
    cases reset with
    | none => rfl
    | some v =>
      refine if_neg fun h => ?_
      rw [henable] at h
      exact absurd h.2 (by decide)

theorem resetTo_elaborated {settled : Env} (hlow : settled resetName = some (.ofBool false))
    (x : String) : (d.elaborated names).statements.findSome? (Stmt.resetTo settled x) = none := by
  rw [List.findSome?_eq_none_iff, statements_body]
  refine List.forall_mem_append.mpr ⟨List.forall_mem_map.mpr fun n _ => ?_, fun s hs => ?_⟩
  · exact resetTo_declaration hlow x n
  · cases s with
    | register name type clock reset =>
      exact absurd hs (register_not_mem_body name type clock reset)
    | _ => rfl

end

/-- A register of a circuit whose reset is low stores the next value of its element. -/
theorem Design.Setting.stores {d : Design} {names : StateNames} {conjuncts : String → List Expr}
    {env : Env} (h : d.Setting names conjuncts env) (hlow : env resetName = some (.ofBool false))
    {s : State} {x : String} (hn : (s, x) ∈ names) (hupdates : d.Updates s) :
    ∃ v, (d.elaborated names).next env x = some v ∧
      v.Holds (d.next (leafReading names env)
        (fun c => d.settled names env c.firing = some (.ofBool true)) s) := by
  obtain ⟨v, heval, hholds⟩ := h.drive hn hupdates
  refine ⟨v, ?_, hholds⟩
  have hlow' : (d.elaborated names).settled env resetName = some (.ofBool false) :=
    (h.frame (.inl (List.mem_cons_of_mem _ (List.mem_cons_self ..)))).trans hlow
  have honce := h.naming.driven_nodup
  rw [← driven_body] at honce
  have houtcome : ((d.elaborated names).settle env).lookup x = some (.ok v) := by
    refine lookup_of_unique fun o => ?_
    rw [h.solution.outcome_unique honce (h.drive_mem hn hupdates), heval]
  rw [Module.next, resetTo_elaborated hlow', houtcome]
  rfl

end GuardedRtl
