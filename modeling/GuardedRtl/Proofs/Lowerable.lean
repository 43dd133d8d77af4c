import GuardedRtl.Proofs.Construction
import GuardedRtl.Proofs.Wiring

/-! What elaboration can refuse. The names of a finished design are free, and the expressions that its
drafts were allowed to use can be looked through and lowered. Two things are left to fail: the
declaration of a state element that is neither a register nor a wire, and the check of the finished
circuit. Main statement: `BuildSession.elaborate_finished`. -/

namespace GuardedRtl

open Rtl

/-! Names -/

theorem reserveAll_exists {design : String} {ns : Names} {ids : List String}
    (hnodup : (ns.taken ++ ids).Nodup) : ∃ ns', reserveAll design ns ids = .ok ns' := by
  induction ids generalizing ns with
  | nil => exact ⟨ns, rfl⟩
  | cons id ids ih =>
    rw [List.nodup_middle, List.nodup_cons, List.mem_append, not_or] at hnodup
    obtain ⟨⟨hfree, hid⟩, hrest⟩ := hnodup
    rw [reserveAll, Names.reserve?, if_neg hfree]
    apply ih
    exact List.nodup_cons.mpr ⟨by simp [hfree, hid], hrest⟩

/-! Discovery -/

/-- Whether looking for state succeeds, whatever was found before. -/
def Succeeds (x : Discovery Unit) : Prop := ∀ found, ∃ found', x.run found = .ok ((), found')

theorem succeeds_pure : Succeeds (pure ()) := fun found => ⟨found, rfl⟩

theorem succeeds_discoverState (s : State) : Succeeds (discoverState s) := fun _ => ⟨_, rfl⟩

theorem Succeeds.bind {x y : Discovery Unit} (hx : Succeeds x) (hy : Succeeds y) :
    Succeeds (do x; y) := by
  intro found
  obtain ⟨mid, hmid⟩ := hx found
  obtain ⟨found', hfound⟩ := hy mid
  refine ⟨found', ?_⟩
  rw [StateT.run_bind, hmid]
  exact hfound

theorem succeeds_node {n : Node} {cs : List Tree} (hn : discoverNode n = pure true)
    (hknown : n.isKnown) (hcs : Succeeds (Tree.visitAll discoverNode cs)) :
    Succeeds (Tree.visitAll discoverNode [.node n cs]) := by
  simp only [Tree.visitAll, Tree.visit, hn, pure_bind, if_true, hknown]
  exact hcs.bind succeeds_pure

theorem succeeds_append {ts us : List Tree} (ht : Succeeds (Tree.visitAll discoverNode ts))
    (hu : Succeeds (Tree.visitAll discoverNode us)) :
    Succeeds (Tree.visitAll discoverNode (ts ++ us)) := by
  rw [visitAll_append]
  exact ht.bind hu

mutual

theorem succeeds_type (t : Ty) (h : t.IsNative) :
    Succeeds (Tree.visitAll discoverNode t.trees) := by
  cases t with
  | absent => exact succeeds_pure
  | vector elem count => exact succeeds_node rfl rfl (succeeds_type elem h)
  | bundle fields => exact succeeds_node rfl rfl (succeeds_fields fields h)
  | foreign kind => exact absurd h id
  | _ => exact succeeds_node rfl rfl succeeds_pure
termination_by structural t

theorem succeeds_fields (fs : List Field) (h : Field.AllNative fs) :
    Succeeds (Tree.visitAll discoverNode (Field.trees fs)) := by
  cases fs with
  | nil => exact succeeds_pure
  | cons f fs =>
    obtain ⟨name, type⟩ := f
    have hfield : Succeeds (Tree.visitAll discoverNode [.node (.field ⟨name, type⟩) type.trees]) :=
      succeeds_node rfl rfl (succeeds_type type h.1)
    exact succeeds_append hfield (succeeds_fields fs h.2)
termination_by structural fs

end

theorem succeeds_expr (e : Expr) (h : ∀ p ∈ e.parts, p.Translates) :
    Succeeds ((Node.expr e).visit discoverNode) := by
  change Succeeds (Tree.visitAll discoverNode e.trees)
  induction e with
  | absent => exact succeeds_pure
  | ref name => exact succeeds_node rfl rfl succeeds_pure
  | literal v t => exact succeeds_node rfl rfl (succeeds_type t (h _ (List.mem_singleton.mpr rfl)))
  | leaf l =>
    have hleaf := h _ (List.mem_singleton.mpr rfl)
    cases l with
    | state s =>
      have hrun : Tree.visitAll discoverNode [.node (.expr (.leaf (.state s))) []] =
          (do discoverState s; pure ()) := by
        simp [Tree.visitAll, Tree.visit, discoverNode]
      rw [Expr.trees, hrun]
      exact (succeeds_discoverState s).bind succeeds_pure
    | argument a =>
      have hrun : Tree.visitAll discoverNode [.node (.expr (.leaf (.argument a))) []] = pure () := by
        simp [Tree.visitAll, Tree.visit, discoverNode]
      rw [Expr.trees, hrun]
      exact succeeds_pure
    | foreign kind name => exact absurd hleaf id
    | unboundArgument => exact absurd hleaf id
  | mux s a b ihs iha ihb =>
    obtain ⟨-, hs, ha, hb⟩ := (Expr.forall_parts rfl).mp h
    exact succeeds_node rfl rfl (succeeds_append (succeeds_append (ihs hs) (iha ha)) (ihb hb))
  | validIf a b iha ihb | binary op a b iha ihb | compare op a b iha ihb
  | shiftLeft a n b iha ihb | shiftRight a n b iha ihb =>
    obtain ⟨-, ha, hb⟩ := (Expr.forall_parts rfl).mp h
    exact succeeds_node rfl rfl (succeeds_append (iha ha) (ihb hb))
  | unary op a ih | pad a w ih | bits a hi lo ih | head a n ih | tail a n ih =>
    obtain ⟨-, ha⟩ := (Expr.forall_parts rfl).mp h
    exact succeeds_node rfl rfl (ih ha)

theorem succeeds_discoverAll {es : List Expr} (h : ∀ e ∈ es, e.Lowerable) :
    Succeeds (discoverAll es) := by
  induction es with
  | nil => exact succeeds_pure
  | cons e es ih =>
    obtain ⟨he, hes⟩ := List.forall_mem_cons.mp h
    exact (succeeds_expr e he.2).bind (ih hes)

theorem succeeds_declared (ss : List State) : Succeeds (ss.forM discoverState) := by
  induction ss with
  | nil => exact succeeds_pure
  | cons s ss ih => exact (succeeds_discoverState s).bind ih

theorem Design.discover_exists {d : Design}
    (h : ∀ c ∈ d.constructs, ∀ e ∈ c.expressions, e.Lowerable) :
    ∃ found, d.discover = .ok found := by
  have hmentioned : ∀ e ∈ d.constructs.flatMap Construct.expressions, e.Lowerable := by
    intro e he
    obtain ⟨c, hc, he⟩ := List.mem_flatMap.mp he
    exact h c hc e he
  obtain ⟨found, hfound⟩ :=
    ((succeeds_declared d.state).bind (succeeds_discoverAll hmentioned)) []
  exact ⟨found, bind_eq_ok.mpr ⟨((), found), hfound, rfl⟩⟩

/-! Declarations -/

/-- The first element that has no declaration is reported. -/
theorem StateNames.declare_eq_error {before after : StateNames} {n : State × String} {kind : String}
    (hbefore : before.Native) (hn : n.1.storage = .foreign kind) :
    StateNames.declare (before ++ n :: after) = .error (.unhandled .declare kind) := by
  have hdeclared : before.mapM (fun n => declareState n.2 n.1) = .ok (before.map declaration) :=
    StateNames.declare_eq_ok.mpr ⟨hbefore, rfl⟩
  have hrefused : declareState n.2 n.1 = .error (.unhandled .declare kind) := by
    rw [declareState, hn]
  rw [StateNames.declare, List.mapM_append, hdeclared, List.mapM_cons, hrefused]
  rfl

theorem Design.elaborate_eq_error {d : Design} {names : StateNames} {e : Error}
    (hnames : d.stateNames = .ok names) (hdeclare : names.declare = .error e) :
    d.elaborate = .error (.within ("elaborate " ++ d.name) e) := by
  rw [Design.elaborate, Design.assemble, hnames]
  change locate _ (do let _ ← names.declare; _) = _
  rw [hdeclare]
  rfl

namespace BuildSession

/-- The names of a finished design are free, looking through it for state succeeds, and its rules and
methods can be lowered. If some state element is of a foreign kind, elaboration reports the first such
element. Otherwise every element is declared, and the circuit is what elaboration gives unless the check
complains; then the complaint is the error, with the name of the design before it. -/
theorem elaborate_finished (id : ℕ) (name : String) (calls : List Call) (d : Design)
    (h : ((start id name).run calls).design = .ok d) :
    ∃ ns found names blocks, d.reserved = .ok ns ∧ d.discover = .ok found ∧
      (∀ s, s ∈ found ↔ d.Mentions s) ∧ names = nameState d.name ns found ∧
      d.constructs.mapM (Construct.lower names) = .ok blocks ∧
      (∀ before s after kind, found = before ++ s :: after → (∀ t ∈ before, t.storage.IsNative) →
        s.storage = .foreign kind →
        d.elaborate = .error (.within ("elaborate " ++ d.name) (.unhandled .declare kind))) ∧
      ((∀ s ∈ found, s.storage.IsNative) →
        ∃ declarations circuit, names.declare = .ok declarations ∧
          circuit = ⟨d.name, [d.module names declarations blocks]⟩ ∧
          ((Node.circuit circuit).check = .ok () → d.elaborate = .ok circuit) ∧
          ∀ e, (Node.circuit circuit).check = .error e →
            d.elaborate = .error (.within ("elaborate " ++ d.name) e)) := by
  have hlowerable : ∀ c ∈ d.constructs, ∀ e ∈ c.expressions, e.Lowerable :=
    fun c hc e he => ((BuildSession.coherent h c hc).expressions e he).lowerable
  obtain ⟨ns, hns⟩ : ∃ ns, d.reserved = .ok ns := reserveAll_exists (identifiers_nodup h)
  obtain ⟨found, hfound⟩ := Design.discover_exists hlowerable
  have hstates := nameState_states d.name ns found
  have hnames := Design.stateNames_eq_ok.mpr ⟨ns, hns, found, hfound, rfl⟩
  generalize hgiven : nameState d.name ns found = names at hstates hnames
  have hblocks : d.constructs.mapM (Construct.lower names) =
      .ok (d.constructs.map (Construct.block names)) :=
    (mapM_eq_ok fun _ _ => Construct.lower_eq_ok).mpr ⟨hlowerable, rfl⟩
  refine ⟨ns, found, names, _, hns, hfound, (Design.discover_ok hfound).2, hgiven.symm, hblocks, ?_, ?_⟩
  · rintro before s after kind rfl hbefore hkind
    obtain ⟨before', rest, rfl, rfl, hrest⟩ := List.map_eq_append_iff.mp hstates
    obtain ⟨n, after', rfl, rfl, rfl⟩ := List.map_eq_cons_iff.mp hrest
    refine Design.elaborate_eq_error hnames (StateNames.declare_eq_error ?_ hkind)
    exact fun m hm => hbefore _ (List.mem_map_of_mem hm)
  · intro hnative
    have hdeclare : names.declare = .ok (names.map declaration) :=
      StateNames.declare_eq_ok.mpr
        ⟨fun n hn => hnative _ (hstates ▸ List.mem_map_of_mem hn), rfl⟩
    refine ⟨_, _, hdeclare, rfl, fun hcheck => ?_, fun e hcheck => ?_⟩ <;>
      simp only [Design.elaborate, Design.assemble, hnames, hdeclare, hblocks, hcheck, bind,
        Except.bind] <;> rfl

end BuildSession

/-! A rule whose guard lacks an operand, which no builder looks for. -/

namespace Incomplete

def flag : State := ⟨0, .register none, "flag", .bit⟩

def calls : List Call := [
  .rule "go",
  .edit "go" (.guard (.binary .and (.leaf (.state flag)) .absent)),
  .edit "go" (.update (some flag) .one),
  .edit "go" .buildRule]

def design : Design where
  name := "M"
  state := []
  rules := [⟨"go", .binary .and (.leaf (.state flag)) .absent, [], [⟨flag, .one⟩]⟩]
  methods := []

end Incomplete

theorem BuildSession.elaborate_finished_incomplete :
    ((BuildSession.start 0 "M").run Incomplete.calls).design = .ok Incomplete.design ∧
    ∃ circuit e, (Node.circuit circuit).check = .error e ∧
      Incomplete.design.elaborate = .error (.within "elaborate M" e) := by
  have hdesign : ((BuildSession.start 0 "M").run Incomplete.calls).design = .ok Incomplete.design := by
    decide +kernel
  have hfails : Incomplete.design.elaborate.isOk = false := by decide +kernel
  obtain ⟨_, found, _, _, -, hfound, -, -, -, -, hnative⟩ :=
    BuildSession.elaborate_finished 0 "M" Incomplete.calls Incomplete.design hdesign
  obtain ⟨-, circuit, -, -, hok, herror⟩ := hnative fun s hs => by
    have hdiscover : Incomplete.design.discover = .ok [Incomplete.flag] := by decide +kernel
    rw [hdiscover] at hfound
    cases hfound
    rw [List.mem_singleton.mp hs]
    trivial
  refine ⟨hdesign, circuit, ?_⟩
  cases hcheck : (Node.circuit circuit).check with
  | ok u =>
    rw [hok hcheck] at hfails
    cases hfails
  | error e => exact ⟨e, rfl, herror e hcheck⟩

/-! A state element that is neither a register nor a wire. The builders take it. -/

namespace Imported

def latch : State := ⟨0, .foreign "*main.latch", "latch", .bit⟩

def calls : List Call := [
  .declare [some latch],
  .rule "go",
  .edit "go" (.guard (.leaf (.state latch))),
  .edit "go" (.update (some latch) .one),
  .edit "go" .buildRule]

def design : Design where
  name := "M"
  state := [latch]
  rules := [⟨"go", .leaf (.state latch), [], [⟨latch, .one⟩]⟩]
  methods := []

end Imported

/-- All calls succeed, and elaboration reports the kind of the element instead of checking a circuit. -/
theorem BuildSession.elaborate_imported :
    ((BuildSession.start 0 "M").run Imported.calls).design = .ok Imported.design ∧
    Imported.design.elaborate =
      .error (.within "elaborate M" (.unhandled .declare "*main.latch")) ∧
    (Error.within "elaborate M" (.unhandled .declare "*main.latch")).message =
      "elaborate M: declare: unhandled construct *main.latch" := by
  decide +kernel

end GuardedRtl
