import GuardedRtl.Proofs.Lowering
import GuardedRtl.Proofs.Naming
import GuardedRtl.Proofs.Priority
import GuardedRtl.Proofs.Statements

/-! The names of elaborated modules: which of them are inputs, which the module drives, and that all
of them are distinct. -/

namespace GuardedRtl

open Rtl

/-! The names of a construct, apart by what they are for -/

namespace Construct

def inputs (c : Construct) : List String :=
  match c with
  | .method (.action _ args) => c.enable :: args.map Argument.port
  | _ => []

def outputs (c : Construct) : List String :=
  match c with
  | .rule _ => []
  | .method (.action _ _) => [c.ready]
  | .method (.value _ _ _) => [c.ready, c.result]

/-- What the circuit drives for the construct. -/
def signals (c : Construct) : List String := c.canFire :: c.firing :: c.outputs

theorem canFire_mem_signals (c : Construct) : c.canFire ∈ c.signals := List.mem_cons_self ..

theorem firing_mem_signals (c : Construct) : c.firing ∈ c.signals :=
  List.mem_cons_of_mem _ (List.mem_cons_self ..)

theorem output_mem_signals {c : Construct} {x : String} (h : x ∈ c.outputs) : x ∈ c.signals :=
  List.mem_cons_of_mem _ (List.mem_cons_of_mem _ h)

theorem ports_perm (c : Construct) : (c.ports.map Port.name).Perm (c.inputs ++ c.outputs) := by
  cases c with
  | rule r => rfl
  | method m =>
    cases m with
    | action r args => simp [ports, inputs, outputs, Port.input, Port.output, Function.comp_def]
    | value r type e => rfl

theorem identifiers_perm (c : Construct) : c.identifiers.Perm (c.inputs ++ c.signals) := by
  have hmiddle : (c.inputs ++ c.signals).Perm (c.canFire :: c.firing :: (c.inputs ++ c.outputs)) :=
    List.perm_middle.trans (List.perm_middle.cons _)
  exact ((c.ports_perm.cons _).cons _).trans hmiddle.symm

end Construct

theorem Design.rule_mem {d : Design} {r : Rule} (h : r ∈ d.rules) : .rule r ∈ d.constructs :=
  List.mem_append_left _ (List.mem_map_of_mem h)

theorem Design.method_mem {d : Design} {m : Method} (h : m ∈ d.methods) : .method m ∈ d.constructs :=
  List.mem_append_right _ (List.mem_map_of_mem h)

/-- The names of the inputs of a design. -/
def Design.inputs (d : Design) : List String :=
  [clockName, resetName] ++ d.constructs.flatMap Construct.inputs

/-- The names that a connection may drive. -/
def Design.targets (d : Design) (names : StateNames) : List String :=
  d.constructs.flatMap Construct.signals ++ names.map Prod.snd

/-- Names for the state of a design: one for each element, distinct from all other names. All elements
can be declared. -/
structure Design.Naming (d : Design) (names : StateNames) : Prop where
  native : names.Native
  states : (names.map Prod.fst).Nodup
  mentioned : ∀ s, s ∈ names.map Prod.fst ↔ d.Mentions s
  distinct : (d.inputs ++ d.targets names).Nodup

namespace Design.Naming

variable {d : Design} {names : StateNames}

theorem targets_nodup (h : d.Naming names) : (d.targets names).Nodup :=
  (List.nodup_append.mp h.distinct).2.1

theorem names_nodup (h : d.Naming names) : (names.map Prod.snd).Nodup :=
  (List.nodup_append.mp h.targets_nodup).2.1

theorem input_not_target (h : d.Naming names) {x : String} (hx : x ∈ d.inputs) :
    x ∉ d.targets names :=
  fun hmem => (List.nodup_append.mp h.distinct).2.2 x hx x hmem rfl

theorem signal_not_state (h : d.Naming names) {x : String}
    (hx : x ∈ d.constructs.flatMap Construct.signals) : x ∉ names.map Prod.snd :=
  fun hmem => (List.nodup_append.mp h.targets_nodup).2.2 x hx x hmem rfl

end Design.Naming

/-- The names that are reserved for a design are distinct. -/
theorem Design.reserved_ok {d : Design} {ns : Names} (h : d.reserved = .ok ns) :
    ns.taken.Nodup ∧ ns.taken.Perm (d.inputs ++ d.constructs.flatMap Construct.signals) := by
  obtain ⟨htaken, hnodup⟩ := reserveAll_ok h
  refine ⟨hnodup (by decide), ?_⟩
  have hids : (d.constructs.flatMap Construct.identifiers).Perm
      (d.constructs.flatMap Construct.inputs ++ d.constructs.flatMap Construct.signals) :=
    (List.Perm.flatMap_left _ fun c _ => c.identifiers_perm).trans
      (List.flatMap_append_perm ..).symm
  rw [htaken, Design.inputs, List.append_assoc]
  exact List.perm_append_comm.trans (((List.reverse_perm _).trans hids).append_left _)

theorem Design.elaborate_naming {d : Design} {circuit : Circuit} (h : d.elaborate = .ok circuit) :
    ∃ names, d.stateNames = .ok names ∧ d.Naming names ∧
      circuit = ⟨d.name, [d.elaborated names]⟩ ∧ (Node.circuit circuit).check = .ok () := by
  obtain ⟨names, hnames, hnative, -, hcircuit, hcheck⟩ := elaborate_eq_ok.mp h
  refine ⟨names, hnames, ?_, hcircuit, hcheck⟩
  obtain ⟨ns, hns, found, hfound, rfl⟩ := stateNames_eq_ok.mp hnames
  obtain ⟨hnodup, hmem⟩ := Design.discover_ok hfound
  obtain ⟨htaken, hperm⟩ := Design.reserved_ok hns
  obtain ⟨hfresh, hapart⟩ := nameState_names d.name ns found
  refine ⟨hnative, by rwa [nameState_states], by rwa [nameState_states], ?_⟩
  rw [Design.targets, ← List.append_assoc]
  refine List.nodup_append.mpr ⟨hperm.nodup_iff.mp htaken, hfresh, ?_⟩
  rintro x hx y hy rfl
  exact hapart x hy (hperm.mem_iff.mpr hx)

/-! What the statements of a module declare and drive -/

/-- Whether some rule or method of the design updates the element. -/
def Design.Updates (d : Design) (s : State) : Prop :=
  ∃ c ∈ d.constructs, ∃ u ∈ c.core.updates, u.target = s

instance (d : Design) (s : State) : Decidable (d.Updates s) :=
  inferInstanceAs (Decidable (∃ c ∈ d.constructs, ∃ u ∈ c.core.updates, u.target = s))

section

variable {d : Design} {names : StateNames}

theorem declared_declaration {n : State × String} (hn : n.1.storage.IsNative) :
    (declaration n).declared = [n.2] := by
  obtain ⟨⟨id, storage, hint, type⟩, x⟩ := n
  cases storage with
  | foreign kind => exact hn.elim
  | _ => rfl

theorem driven_declaration (n : State × String) : (declaration n).driven = [] := by
  obtain ⟨⟨id, storage, hint, type⟩, x⟩ := n
  cases storage <;> rfl

theorem effects_flatMap_nil (f : Stmt → List String) (firing : String) (body : List Effect)
    (hprintf : ∀ clock condition format args, f (.printf clock condition format args) = [])
    (hstop : ∀ clock condition exitCode, f (.stop clock condition exitCode) = []) :
    (body.map (effectStatement names firing)).flatMap f = [] := by
  rw [List.flatMap_map, List.flatMap_eq_nil_iff]
  intro e _
  cases e with
  | display format args => exact hprintf ..
  | finish exitCode => exact hstop ..

theorem declared_block (c : Construct) :
    (c.block names).statements.flatMap Stmt.declared = [c.canFire, c.firing] := by
  have heffects : (c.core.body.map (effectStatement names c.firing)).flatMap Stmt.declared = [] :=
    effects_flatMap_nil _ _ _ (fun _ _ _ _ => rfl) (fun _ _ _ => rfl)
  have houtputs : (c.outputStatements names).flatMap Stmt.declared = [] := by
    unfold Construct.outputStatements
    split <;> rfl
  simp [Construct.block, Stmt.declared, heffects, houtputs]

theorem driven_block (c : Construct) :
    (c.block names).statements.flatMap Stmt.driven = c.canFire :: c.outputs := by
  have heffects : (c.core.body.map (effectStatement names c.firing)).flatMap Stmt.driven = [] :=
    effects_flatMap_nil _ _ _ (fun _ _ _ _ => rfl) (fun _ _ _ => rfl)
  have houtputs : (c.outputStatements names).flatMap Stmt.driven = c.outputs := by
    unfold Construct.outputStatements Construct.outputs
    split <;> rfl
  simp [Construct.block, Stmt.driven, heffects, houtputs]

/-- What decides whether a method fires. -/
def methodSignal (m : Method) : Expr :=
  let c := Construct.method m
  match m with
  | .action _ _ => .and (.ref c.canFire) (.ref c.enable)
  | .value _ _ _ => .ref c.canFire

/-- What decides whether rules and methods fire, in the order of `Design.constructs`. -/
def Design.firingSignals (d : Design) : List Expr :=
  Schedule.priority (d.rules.map fun r => .ref (Construct.rule r).canFire) ++
    d.methods.map methodSignal

theorem length_firingSignals (d : Design) : d.firingSignals.length = d.constructs.length := by
  simp [Design.firingSignals, Design.constructs, Schedule.priority, Schedule.length_maskedBy]

theorem scheduler_eq (d : Design) :
    d.scheduler = List.zipWith (fun c e => .connect (Construct.firing c) e) d.constructs
      d.firingSignals := by
  have hmethod : scheduleMethod = fun m => .connect (Construct.method m).firing (methodSignal m) := by
    funext m
    cases m <;> rfl
  rw [Design.constructs, Design.firingSignals, List.zipWith_append]
  · rw [Design.scheduler, scheduleRules, List.map_map, List.zipWith_map, List.zipWith_self, hmethod]
    rfl
  · simp [Schedule.priority, Schedule.length_maskedBy]

theorem connects_flatMap {f : Construct → String} {g : Stmt → List String}
    {h : Construct → List String} (hg : ∀ c e, g (.connect (f c) e) = h c) {cs : List Construct} {es : List Expr}
    (hlen : es.length = cs.length) :
    (List.zipWith (fun c e => .connect (f c) e) cs es).flatMap g = cs.flatMap h := by
  induction cs generalizing es with
  | nil => rfl
  | cons c cs ih =>
    cases es with
    | nil => cases hlen
    | cons e es =>
      rw [List.zipWith_cons_cons, List.flatMap_cons, List.flatMap_cons, hg,
        ih (Nat.succ.inj hlen)]

theorem declared_scheduler (d : Design) : d.scheduler.flatMap Stmt.declared = [] := by
  rw [scheduler_eq, connects_flatMap (h := fun _ => []) (fun _ _ => rfl) (length_firingSignals d)]
  simp

theorem driven_scheduler (d : Design) :
    d.scheduler.flatMap Stmt.driven = d.constructs.map Construct.firing := by
  rw [scheduler_eq, connects_flatMap (h := fun c => [c.firing]) (fun _ _ => rfl)
    (length_firingSignals d), List.map_eq_flatMap]

theorem driversOf_block (s : State) :
    driversOf (d.constructs.map (Construct.block names)) s = d.constructs.flatMap fun c =>
      (c.core.updates.filter fun u => u.target = s).map (updateDriver names c.firing) := by
  rw [driversOf, List.flatMap_map, List.filter_flatMap]
  refine List.flatMap_congr fun c _ => ?_
  rw [Construct.block, List.filter_map]
  rfl

theorem driversOf_eq_nil {s : State} :
    driversOf (d.constructs.map (Construct.block names)) s = [] ↔ ¬ d.Updates s := by
  simp [driversOf_block, Design.Updates]

theorem driven_driveState {n : State × String} (hn : n.1.storage.IsNative) (ds : List Driver) :
    (driveState n.2 n.1 ds).flatMap Stmt.driven = if ds = [] then [] else [n.2] := by
  obtain ⟨⟨id, storage, hint, type⟩, x⟩ := n
  cases ds with
  | nil => rfl
  | cons d ds =>
    cases storage with
    | foreign kind => exact hn.elim
    | _ => rfl

theorem declared_driveState (n : State × String) (ds : List Driver) :
    (driveState n.2 n.1 ds).flatMap Stmt.declared = [] := by
  cases ds with
  | nil => rfl
  | cons d ds =>
    rw [driveState]
    split <;> rfl

/-- The statements that stand before the scheduler. -/
def Design.preamble (d : Design) (names : StateNames) : List Stmt :=
  names.map declaration ++
    (d.constructs.map (Construct.block names)).flatMap Block.statements

/-- The statements that drive the state. -/
def Design.drives (d : Design) (names : StateNames) : List Stmt :=
  names.flatMap fun n => driveState n.2 n.1 (driversOf (d.constructs.map (Construct.block names)) n.1)

theorem statements_elaborated :
    (d.elaborated names).statements = d.preamble names ++ d.scheduler ++ d.drives names := rfl

theorem declared_state (h : names.Native) :
    (names.map declaration).flatMap Stmt.declared = names.map Prod.snd := by
  rw [List.flatMap_map, List.map_eq_flatMap]
  exact List.flatMap_congr fun n hn => declared_declaration (h n hn)

theorem declared_preamble (h : names.Native) : (d.preamble names).flatMap Stmt.declared =
    names.map Prod.snd ++ d.constructs.flatMap fun c => [c.canFire, c.firing] := by
  rw [Design.preamble, List.flatMap_append, declared_state h, List.flatMap_assoc, List.flatMap_map]
  simp only [declared_block]

theorem declared_drives : (d.drives names).flatMap Stmt.declared = [] := by
  simp [Design.drives, List.flatMap_assoc, declared_driveState]

theorem declared_elaborated (h : names.Native) :
    (d.elaborated names).statements.flatMap Stmt.declared =
    names.map Prod.snd ++ d.constructs.flatMap fun c => [c.canFire, c.firing] := by
  simp [statements_elaborated, declared_preamble h, declared_scheduler, declared_drives]

theorem driven_preamble : (d.preamble names).flatMap Stmt.driven =
    d.constructs.flatMap fun c => c.canFire :: c.outputs := by
  simp [Design.preamble, List.flatMap_assoc, List.flatMap_map, driven_declaration, driven_block]

theorem driven_drives (h : names.Native) : (d.drives names).flatMap Stmt.driven =
    (names.filter fun n => d.Updates n.1).map Prod.snd := by
  have hupdated : ∀ ns : StateNames, (ns.flatMap fun n => if d.Updates n.1 then [n.2] else []) =
      (ns.filter fun n => d.Updates n.1).map Prod.snd := by
    intro ns
    induction ns with
    | nil => rfl
    | cons n ns ih => by_cases h : d.Updates n.1 <;> simp [h, ih]
  rw [Design.drives, List.flatMap_assoc, ← hupdated]
  refine List.flatMap_congr fun n hn => ?_
  simp only [driven_driveState (h n hn), driversOf_eq_nil, ite_not]

theorem driven_elaborated (h : names.Native) : (d.elaborated names).driven =
    (d.constructs.flatMap fun c => c.canFire :: c.outputs) ++ d.constructs.map Construct.firing ++
      (names.filter fun n => d.Updates n.1).map Prod.snd := by
  rw [Module.driven, statements_elaborated, List.flatMap_append, List.flatMap_append, driven_preamble,
    driven_scheduler, driven_drives h]

theorem signals_perm (cs : List Construct) : (cs.flatMap Construct.signals).Perm
    ((cs.flatMap fun c => [c.canFire, c.firing]) ++ cs.flatMap Construct.outputs) :=
  (List.flatMap_append_perm cs (fun c => [c.canFire, c.firing]) Construct.outputs).symm

theorem names_perm (h : names.Native) :
    (d.elaborated names).names.Perm (d.inputs ++ d.targets names) := by
  have hports : ((d.constructs.flatMap Construct.ports).map Port.name).Perm
      (d.constructs.flatMap Construct.inputs ++ d.constructs.flatMap Construct.outputs) := by
    rw [List.map_flatMap]
    exact (List.Perm.flatMap_left _ fun c _ => c.ports_perm).trans (List.flatMap_append_perm ..).symm
  rw [List.perm_iff_count]
  intro x
  have hcount := hports.count_eq x
  have hcount' := (signals_perm d.constructs).count_eq x
  have hstandard : Port.standard.map Port.name = [clockName, resetName] := rfl
  rw [Module.names, declared_elaborated h]
  simp only [Design.elaborated, Design.module, Module.clocked, Design.inputs, Design.targets,
    List.map_append, List.count_append, hstandard] at hcount hcount' ⊢
  omega

theorem driven_perm (h : names.Native) : (d.elaborated names).driven.Perm
    (d.constructs.flatMap Construct.signals ++
      (names.filter fun n => d.Updates n.1).map Prod.snd) := by
  have hsignals : ((d.constructs.flatMap fun c => c.canFire :: c.outputs) ++
      d.constructs.map Construct.firing).Perm (d.constructs.flatMap Construct.signals) := by
    rw [List.map_eq_flatMap]
    refine (List.flatMap_append_perm ..).trans (List.Perm.flatMap_left _ fun c _ => ?_)
    exact (List.perm_append_singleton c.firing (c.canFire :: c.outputs)).trans (.swap ..)
  rw [driven_elaborated h]
  exact hsignals.append_right _

theorem Design.Naming.driven_nodup (h : d.Naming names) : (d.elaborated names).driven.Nodup := by
  rw [(driven_perm h.native).nodup_iff]
  exact h.targets_nodup.sublist
    ((List.Sublist.refl _).append (List.filter_sublist.map _))

end

end GuardedRtl
