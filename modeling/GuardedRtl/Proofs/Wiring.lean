import GuardedRtl.Proofs.Sessions
import GuardedRtl.Proofs.Signals

/-! The wiring of elaborated circuits. All names of the module are distinct, statements refer only to
what is known before them, and everything that has to be driven is driven once. Main statement:
`elaborate_wired`. -/

namespace GuardedRtl

open Rtl

section

variable {d : Design} {names : StateNames}

/-! What the statements of a module refer to -/

/-- A name in a lowered expression was there before or stands for a leaf. -/
theorem refs_renamed {e : Expr} {x : String} (h : x ∈ (renamed names e).refs) :
    (∃ s, .leaf (.state s) ∈ e.parts ∧ names.get s = x) ∨
    (∃ a, .leaf (.argument a) ∈ e.parts ∧ a.port = x) ∨ x ∈ e.refs := by
  rw [Expr.mem_refs, parts_renamed] at h
  obtain ⟨p, hp, hx⟩ := List.mem_map.mp h
  cases p with
  | ref y => cases hx; exact .inr (.inr (Expr.mem_refs.mpr hp))
  | leaf l =>
    cases l with
    | state s => cases hx; exact .inl ⟨s, hp, rfl⟩
    | argument a => cases hx; exact .inr (.inl ⟨a, hp, rfl⟩)
    | _ => cases hx
  | _ => cases hx

theorem Design.Naming.get_mem (h : d.Naming names) {s : State} (hs : d.Mentions s) :
    (s, names.get s) ∈ names := by
  obtain ⟨⟨t, x⟩, hmem, rfl⟩ := List.mem_map.mp ((h.mentioned s).mpr hs)
  rwa [StateNames.get_of_mem h.states hmem]

namespace Construct

theorem display_mem {c : Construct} {format : Text.Bytes} {args : List Expr}
    (h : .display format args ∈ c.core.body) {e : Expr} (he : e ∈ args) : e ∈ c.expressions := by
  simp only [expressions, List.mem_append, List.mem_cons]
  exact .inl (.inl (.inr (List.mem_flatMap.mpr ⟨_, h, he⟩)))

theorem update_mem {c : Construct} {u : Update} (h : u ∈ c.core.updates) :
    .leaf (.state u.target) ∈ c.expressions ∧ u.value ∈ c.expressions := by
  have hmem : ∀ e ∈ [.leaf (.state u.target), u.value], e ∈ c.expressions := by
    intro e he
    simp only [expressions, List.mem_append, List.mem_flatMap]
    exact .inl (.inr ⟨u, h, he⟩)
  exact ⟨hmem _ (by simp), hmem _ (by simp)⟩

theorem result_mem {r : Rule} {type : Ty} {e : Expr} :
    e ∈ (Construct.method (.value r type e)).expressions :=
  List.mem_append_right _ (List.mem_singleton_self e)

end Construct

theorem Construct.port_mem_inputs {c : Construct} {a : Argument} (h : a ∈ c.args) :
    a.port ∈ c.inputs := by
  cases c with
  | rule r => cases h
  | method m =>
    cases m with
    | action r args => exact List.mem_cons_of_mem _ (List.mem_map_of_mem h)
    | value r type e => cases h

/-- The rules and methods use only state and arguments of their own, and no names of the circuit. -/
def Design.Closed (d : Design) : Prop :=
  ∀ c ∈ d.constructs, ∀ e ∈ c.expressions, e.Within c.args ∧ e.refs = []

theorem Design.Closed.refs (hclosed : d.Closed) (hnaming : d.Naming names) {c : Construct}
    (hc : c ∈ d.constructs) {e : Expr} (he : e ∈ c.expressions) {x : String}
    (hx : x ∈ (renamed names e).refs) : x ∈ c.inputs ∨ x ∈ names.map Prod.snd := by
  obtain ⟨hwithin, hplain⟩ := hclosed c hc e he
  rcases refs_renamed hx with ⟨s, hs, rfl⟩ | ⟨a, ha, rfl⟩ | hx
  · exact .inr (List.mem_map_of_mem (hnaming.get_mem (.inr ⟨c, hc, e, he, hs⟩)))
  · exact .inl (Construct.port_mem_inputs (hwithin.leaves _ ha))
  · rw [hplain] at hx
    cases hx

theorem mem_portNames {x : String} : x ∈ (d.elaborated names).ports.map Port.name ↔
    x ∈ d.inputs ∨ x ∈ d.constructs.flatMap Construct.outputs := by
  have hports : ∀ c : Construct, x ∈ c.ports.map Port.name ↔ x ∈ c.inputs ∨ x ∈ c.outputs := by
    intro c
    rw [c.ports_perm.mem_iff, List.mem_append]
  have hstandard : Port.standard.map Port.name = [clockName, resetName] := rfl
  simp only [Design.elaborated, Design.module, Module.clocked, Design.inputs, List.map_append,
    List.map_flatMap, List.mem_append, List.mem_flatMap, hstandard, hports, or_assoc]
  constructor
  · rintro (hx | ⟨c, hc, hx | hx⟩)
    · exact .inl hx
    · exact .inr (.inl ⟨c, hc, hx⟩)
    · exact .inr (.inr ⟨c, hc, hx⟩)
  · rintro (hx | ⟨c, hc, hx⟩ | ⟨c, hc, hx⟩)
    · exact .inl hx
    · exact .inr ⟨c, hc, .inl hx⟩
    · exact .inr ⟨c, hc, .inr hx⟩

theorem refs_declaration (n : State × String) :
    (declaration n).refs ⊆ [clockName, resetName] := by
  obtain ⟨⟨id, storage, hint, type⟩, x⟩ := n
  cases storage with
  | register reset =>
    cases reset with
    | none => exact List.cons_subset_cons _ (List.nil_subset _)
    | some v => exact List.Subset.refl _
  | wire => exact List.nil_subset _
  | foreign kind => exact List.nil_subset _

theorem refs_effectStatement {firing x : String} {e : Effect}
    (hx : x ∈ (effectStatement names firing e).refs) :
    x = clockName ∨ x = firing ∨
      ∃ format args, e = .display format args ∧ ∃ a ∈ args, x ∈ (renamed names a).refs := by
  cases e with
  | display format args =>
    simp only [effectStatement, Stmt.refs, Expr.refs_ref, List.mem_append, List.mem_singleton,
      List.mem_flatMap, or_assoc] at hx
    rcases hx with hx | hx | hx
    · exact .inl hx
    · exact .inr (.inl hx)
    · exact .inr (.inr ⟨format, args, rfl, by simpa using hx⟩)
  | finish exitCode =>
    simp only [effectStatement, Stmt.refs, Expr.refs_ref, List.mem_append, List.mem_singleton] at hx
    rcases hx with hx | hx
    · exact .inl hx
    · exact .inr (.inl hx)

/-- The connections of the outputs of a method. -/
theorem mem_outputStatements {c : Construct} {s : Stmt} (hs : s ∈ c.outputStatements names) :
    (∃ m, c = .method m ∧ s = .connect c.ready (.ref c.canFire)) ∨
    ∃ r type e, c = .method (.value r type e) ∧ s = .connect c.result (renamed names e) := by
  cases c with
  | rule r => cases hs
  | method m =>
    cases m with
    | action r args => exact .inl ⟨_, rfl, List.mem_singleton.mp hs⟩
    | value r type e =>
      rcases List.mem_cons.mp hs with rfl | hs
      · exact .inl ⟨_, rfl, rfl⟩
      · exact .inr ⟨r, type, e, rfl, List.mem_singleton.mp hs⟩

theorem ready_mem_outputs (m : Method) :
    (Construct.method m).ready ∈ (Construct.method m).outputs := by
  cases m <;> exact List.mem_cons_self ..

/-- The expressions of a construct and its signals are all that its block refers to. -/
theorem refs_block {c : Construct} {s : Stmt} (hs : s ∈ (c.block names).statements) {x : String}
    (hx : x ∈ s.refs) :
    x = clockName ∨ x ∈ c.signals ∨ ∃ e ∈ c.expressions, x ∈ (renamed names e).refs := by
  rcases List.mem_append.mp hs with hs | hs
  · simp only [List.mem_cons] at hs
    rcases hs with rfl | rfl | rfl | hs
    · cases hx
    · cases hx
    · rcases List.mem_cons.mp hx with rfl | hx
      · exact .inr (.inl c.canFire_mem_signals)
      · exact .inr (.inr ⟨c.core.guard, List.mem_cons_self .., hx⟩)
    · obtain ⟨e, he, rfl⟩ := List.mem_map.mp hs
      rcases refs_effectStatement hx with rfl | rfl | ⟨format, args, rfl, a, ha, hx⟩
      · exact .inl rfl
      · exact .inr (.inl c.firing_mem_signals)
      · exact .inr (.inr ⟨a, Construct.display_mem he ha, hx⟩)
  · rcases mem_outputStatements hs with ⟨m, rfl, rfl⟩ | ⟨r, type, e, rfl, rfl⟩
    · rcases List.mem_cons.mp hx with rfl | hx
      · exact .inr (.inl (Construct.output_mem_signals (ready_mem_outputs m)))
      · rw [List.mem_singleton.mp hx]
        exact .inr (.inl (Construct.canFire_mem_signals _))
    · rcases List.mem_cons.mp hx with rfl | hx
      · refine .inr (.inl (Construct.output_mem_signals ?_))
        exact List.mem_cons_of_mem _ (List.mem_cons_self ..)
      · exact .inr (.inr ⟨e, Construct.result_mem, hx⟩)

theorem refs_maskedBy {cs : List Expr} {earlier : Expr} {x : String} {e : Expr}
    (he : e ∈ Schedule.maskedBy earlier cs) (hx : x ∈ e.refs) :
    x ∈ earlier.refs ∨ ∃ c ∈ cs, x ∈ c.refs := by
  induction cs generalizing earlier with
  | nil => cases he
  | cons c cs ih =>
    rw [Schedule.maskedBy] at he
    split_ifs at he
    · rcases List.mem_cons.mp he with rfl | he
      · simp only [Expr.refs_and, Expr.refs_not, List.mem_append] at hx
        exact hx.symm.imp_right fun h => ⟨c, List.mem_cons_self .., h⟩
      · have hrest := ih he
        simp only [Expr.refs_or, List.mem_append, or_assoc] at hrest
        simpa using hrest
    · rcases List.mem_cons.mp he with rfl | he
      · exact .inr ⟨e, List.mem_cons_self .., hx⟩
      · exact .inr (by simpa using ih he)

theorem refs_select {x : String} {default : Expr} {ds : List Driver}
    (hx : x ∈ (select default ds).refs) :
    x ∈ default.refs ∨ ∃ d ∈ ds, x ∈ d.firing.refs ∨ x ∈ d.value.refs := by
  induction ds with
  | nil => exact .inl hx
  | cons d ds ih =>
    simp only [select, Expr.refs_mux, List.mem_append] at hx
    rcases hx with hx | hx
    · exact .inr ⟨d, List.mem_cons_self .., hx⟩
    · exact (ih hx).imp_right fun ⟨d', hd', hx'⟩ => ⟨d', List.mem_cons_of_mem _ hd', hx'⟩

theorem refs_selectLast {x : String} {d : Driver} {ds : List Driver}
    (hx : x ∈ (selectLast d ds).refs) :
    ∃ d' ∈ d :: ds, x ∈ d'.firing.refs ∨ x ∈ d'.value.refs := by
  induction ds generalizing d with
  | nil => exact ⟨d, List.mem_cons_self .., .inr hx⟩
  | cons next ds ih =>
    simp only [selectLast, Expr.refs_mux, List.mem_append] at hx
    rcases hx with hx | hx
    · exact ⟨d, List.mem_cons_self .., hx⟩
    · obtain ⟨d', hd', hx'⟩ := ih hx
      exact ⟨d', List.mem_cons_of_mem _ hd', hx'⟩

theorem refs_anyFiring {x : String} {d : Driver} {ds : List Driver}
    (hx : x ∈ (anyFiring d ds).refs) : ∃ d' ∈ d :: ds, x ∈ d'.firing.refs := by
  have hfold : ∀ e : Expr, x ∈ (ds.foldl (fun e d => .or e d.firing) e).refs →
      x ∈ e.refs ∨ ∃ d' ∈ ds, x ∈ d'.firing.refs := by
    clear hx
    induction ds with
    | nil => exact fun e hx => .inl hx
    | cons next ds ih =>
      intro e hx
      have hrest := ih _ hx
      simp only [Expr.refs_or, List.mem_append, or_assoc] at hrest
      simpa using hrest
  simpa using hfold _ hx

theorem refs_driveState {x : String} {n : State × String} {ds : List Driver} {s : Stmt}
    (hs : s ∈ driveState n.2 n.1 ds) (hx : x ∈ s.refs) :
    x = n.2 ∨ ∃ d ∈ ds, x ∈ d.firing.refs ∨ x ∈ d.value.refs := by
  cases ds with
  | nil => cases hs
  | cons d ds =>
    rw [driveState] at hs
    split at hs
    · cases List.mem_singleton.mp hs
      rcases List.mem_cons.mp hx with rfl | hx
      · exact .inl rfl
      · simpa using refs_select hx
    · cases List.mem_singleton.mp hs
      rcases List.mem_cons.mp hx with rfl | hx
      · exact .inl rfl
      · rw [Expr.refs_validIf, List.mem_append] at hx
        rcases hx with hx | hx
        · obtain ⟨d', hd', hx⟩ := refs_anyFiring hx
          exact .inr ⟨d', hd', .inl hx⟩
        · exact .inr (refs_selectLast hx)
    · cases hs

theorem mem_targets {c : Construct} (hc : c ∈ d.constructs) {x : String} (hx : x ∈ c.signals) :
    x ∈ d.targets names :=
  List.mem_append_left _ (List.mem_flatMap.mpr ⟨c, hc, hx⟩)

theorem mem_inputs_of_mem {c : Construct} (hc : c ∈ d.constructs) {x : String} (hx : x ∈ c.inputs) :
    x ∈ d.inputs :=
  List.mem_append_right _ (List.mem_flatMap.mpr ⟨c, hc, hx⟩)

theorem clockName_mem_inputs : clockName ∈ d.inputs := List.mem_cons_self ..

theorem scoped_block (hclosed : d.Closed) (hnaming : d.Naming names) {c : Construct}
    (hc : c ∈ d.constructs) {known : List String} (hinputs : d.inputs ⊆ known)
    (houtputs : c.outputs ⊆ known) (hstate : names.map Prod.snd ⊆ known) :
    Stmt.Scoped known (c.block names).statements := by
  refine ⟨List.nil_subset _, List.nil_subset _, Stmt.ordered_of_forall fun s hs x hx => ?_⟩
  have hs : s ∈ (c.block names).statements := List.mem_cons_of_mem _ (List.mem_cons_of_mem _ hs)
  rcases refs_block hs hx with rfl | hx | ⟨e, he, hx⟩
  · exact List.mem_append_left _ (List.mem_append_left _ (hinputs clockName_mem_inputs))
  · simp only [Construct.signals, List.mem_cons] at hx
    rcases hx with rfl | rfl | hx
    · exact List.mem_append_left _ (List.mem_append_right _ (List.mem_singleton_self _))
    · exact List.mem_append_right _ (List.mem_singleton_self _)
    · exact List.mem_append_left _ (List.mem_append_left _ (houtputs hx))
  · refine List.mem_append_left _ (List.mem_append_left _ ?_)
    rcases hclosed.refs hnaming hc he hx with hx | hx
    · exact hinputs (mem_inputs_of_mem hc hx)
    · exact hstate hx

theorem refs_firingSignals {e : Expr} (he : e ∈ d.firingSignals) {x : String} (hx : x ∈ e.refs) :
    x ∈ d.inputs ∨ ∃ c ∈ d.constructs, x = c.canFire := by
  rcases List.mem_append.mp he with he | he
  · rcases refs_maskedBy he hx with hx | ⟨c, hc, hx⟩
    · cases hx
    · obtain ⟨r, hr, rfl⟩ := List.mem_map.mp hc
      exact .inr ⟨_, Design.rule_mem hr, List.mem_singleton.mp hx⟩
  · obtain ⟨m, hm, rfl⟩ := List.mem_map.mp he
    have hc := Design.method_mem hm
    cases m with
    | action r args =>
      simp only [methodSignal, Expr.refs_and, Expr.refs_ref, List.mem_append, List.mem_singleton] at hx
      rcases hx with rfl | rfl
      · exact .inr ⟨_, hc, rfl⟩
      · exact .inl (mem_inputs_of_mem hc (List.mem_cons_self ..))
    | value r type e => exact .inr ⟨_, hc, List.mem_singleton.mp hx⟩

theorem mem_scheduler {s : Stmt} (hs : s ∈ d.scheduler) :
    ∃ c ∈ d.constructs, ∃ e ∈ d.firingSignals, s = .connect c.firing e := by
  rw [scheduler_eq, ← List.map_uncurry_zip_eq_zipWith] at hs
  obtain ⟨⟨c, e⟩, hmem, rfl⟩ := List.mem_map.mp hs
  obtain ⟨hc, he⟩ := List.of_mem_zip hmem
  exact ⟨c, hc, e, he, rfl⟩

theorem refs_drives (hclosed : d.Closed) (hnaming : d.Naming names) {s : Stmt}
    (hs : s ∈ d.drives names) {x : String} (hx : x ∈ s.refs) :
    x ∈ d.inputs ∨ x ∈ names.map Prod.snd ∨ ∃ c ∈ d.constructs, x = c.firing := by
  obtain ⟨n, hn, hs⟩ := List.mem_flatMap.mp hs
  rcases refs_driveState hs hx with rfl | ⟨driver, hdriver, hx⟩
  · exact .inr (.inl (List.mem_map_of_mem hn))
  · rw [driversOf_block] at hdriver
    obtain ⟨c, hc, hdriver⟩ := List.mem_flatMap.mp hdriver
    obtain ⟨u, hu, rfl⟩ := List.mem_map.mp hdriver
    rcases hx with hx | hx
    · exact .inr (.inr ⟨c, hc, List.mem_singleton.mp hx⟩)
    · have he := (Construct.update_mem (List.mem_of_mem_filter hu)).2
      rcases hclosed.refs hnaming hc he hx with hx | hx
      · exact .inl (mem_inputs_of_mem hc hx)
      · exact .inr (.inl hx)

theorem scoped_elaborated (hclosed : d.Closed) (hnaming : d.Naming names) :
    Stmt.Scoped ((d.elaborated names).ports.map Port.name) (d.elaborated names).statements := by
  have hinputs : d.inputs ⊆ (d.elaborated names).ports.map Port.name :=
    fun x hx => mem_portNames.mpr (.inl hx)
  have hdeclare : Stmt.Scoped ((d.elaborated names).ports.map Port.name)
      (names.map declaration) := by
    refine Stmt.ordered_of_forall fun s hs x hx => hinputs ?_
    obtain ⟨n, -, rfl⟩ := List.mem_map.mp hs
    exact List.mem_append_left _ (refs_declaration n hx)
  -- Once all is declared, everything that has a name is known.
  have hknown : d.inputs ++ d.targets names ⊆
      (d.elaborated names).ports.map Port.name ++ (d.preamble names).flatMap Stmt.declared := by
    intro x hx
    have hx := (names_perm hnaming.native).mem_iff.mpr hx
    rwa [Module.names, declared_elaborated hnaming.native, ← declared_preamble hnaming.native] at hx
  rw [statements_elaborated]
  refine (hdeclare.append ?_ |>.append ?_).append ?_
  · refine Stmt.ordered_flatMap fun b hb => ?_
    obtain ⟨c, hc, rfl⟩ := List.mem_map.mp hb
    have houtputs : c.outputs ⊆ (d.elaborated names).ports.map Port.name :=
      fun x hx => mem_portNames.mpr (.inr (List.mem_flatMap.mpr ⟨c, hc, hx⟩))
    refine scoped_block hclosed hnaming hc (List.subset_append_of_subset_left _ hinputs)
      (List.subset_append_of_subset_left _ houtputs) ?_
    rw [declared_state hnaming.native]
    exact List.subset_append_right ..
  · refine Stmt.ordered_of_forall fun s hs x hx => hknown ?_
    obtain ⟨c, hc, e, he, rfl⟩ := mem_scheduler hs
    rcases List.mem_cons.mp hx with rfl | hx
    · exact List.mem_append_right _ (mem_targets hc (Construct.firing_mem_signals c))
    · rcases refs_firingSignals he hx with hx | ⟨c', hc', rfl⟩
      · exact List.mem_append_left _ hx
      · exact List.mem_append_right _ (mem_targets hc' (Construct.canFire_mem_signals c'))
  · rw [List.flatMap_append, declared_scheduler, List.append_nil]
    refine Stmt.ordered_of_forall fun s hs x hx => hknown ?_
    rcases refs_drives hclosed hnaming hs hx with hx | hx | ⟨c, hc, rfl⟩
    · exact List.mem_append_left _ hx
    · exact List.mem_append_right _ (List.mem_append_right _ hx)
    · exact List.mem_append_right _ (mem_targets hc (Construct.firing_mem_signals c))

/-! The module of a design -/

theorem Construct.port_cases {c : Construct} {p : Port} (h : p ∈ c.ports) :
    p.dir = .input ∧ p.name ∈ c.inputs ∨ p.dir = .output ∧ p.name ∈ c.outputs := by
  cases c with
  | rule r => cases h
  | method m =>
    cases m with
    | action r args =>
      simp only [Construct.ports, List.mem_append, List.mem_cons, List.mem_map, List.not_mem_nil,
        or_false] at h
      rcases h with (rfl | ⟨a, ha, rfl⟩) | rfl
      · exact .inl ⟨rfl, List.mem_cons_self ..⟩
      · exact .inl ⟨rfl, List.mem_cons_of_mem _ (List.mem_map_of_mem ha)⟩
      · exact .inr ⟨rfl, List.mem_cons_self ..⟩
    | value r type e =>
      simp only [Construct.ports, List.mem_cons, List.not_mem_nil, or_false] at h
      rcases h with rfl | rfl
      · exact .inr ⟨rfl, List.mem_cons_self ..⟩
      · exact .inr ⟨rfl, List.mem_cons_of_mem _ (List.mem_cons_self ..)⟩

theorem port_cases {p : Port} (hp : p ∈ (d.elaborated names).ports) :
    p.dir = .input ∧ p.name ∈ d.inputs ∨
      p.dir = .output ∧ ∃ c ∈ d.constructs, p.name ∈ c.outputs := by
  rcases List.mem_append.mp hp with hp | hp
  · simp only [Port.standard, List.mem_cons, List.not_mem_nil, or_false] at hp
    rcases hp with rfl | rfl
    · exact .inl ⟨rfl, List.mem_cons_self ..⟩
    · exact .inl ⟨rfl, List.mem_cons_of_mem _ (List.mem_cons_self ..)⟩
  · obtain ⟨c, hc, hp⟩ := List.mem_flatMap.mp hp
    rcases Construct.port_cases hp with ⟨hdir, hx⟩ | ⟨hdir, hx⟩
    · exact .inl ⟨hdir, mem_inputs_of_mem hc hx⟩
    · exact .inr ⟨hdir, c, hc, hx⟩

theorem Design.Naming.driven_signal (h : d.Naming names) {c : Construct} (hc : c ∈ d.constructs)
    {x : String} (hx : x ∈ c.signals) : (d.elaborated names).driven.count x = 1 := by
  apply List.count_eq_one_of_mem h.driven_nodup
  rw [(driven_perm h.native).mem_iff]
  exact List.mem_append_left _ (List.mem_flatMap.mpr ⟨c, hc, hx⟩)

theorem Design.Naming.driven_input (h : d.Naming names) {x : String} (hx : x ∈ d.inputs) :
    (d.elaborated names).driven.count x = 0 := by
  rw [List.count_eq_zero, (driven_perm h.native).mem_iff]
  intro hmem
  refine h.input_not_target hx ?_
  exact ((List.Sublist.refl _).append (List.filter_sublist.map _)).subset hmem

theorem Design.Naming.driven_state (h : d.Naming names) {s : State} {x : String}
    (hmem : (s, x) ∈ names) :
    (d.elaborated names).driven.count x = if d.Updates s then 1 else 0 := by
  split_ifs with hs
  · apply List.count_eq_one_of_mem h.driven_nodup
    rw [(driven_perm h.native).mem_iff]
    refine List.mem_append_right _ (List.mem_map.mpr ⟨(s, x), ?_, rfl⟩)
    exact List.mem_filter.mpr ⟨hmem, decide_eq_true hs⟩
  · rw [List.count_eq_zero, (driven_perm h.native).mem_iff, List.mem_append]
    rintro (hx | hx)
    · exact h.signal_not_state hx (List.mem_map_of_mem hmem)
    · obtain ⟨n, hn, hnx⟩ := List.mem_map.mp hx
      obtain ⟨hn, hupdates⟩ := List.mem_filter.mp hn
      have hns : n = (s, x) := List.inj_on_of_nodup_map h.names_nodup hn hmem hnx
      rw [hns] at hupdates
      exact hs (of_decide_eq_true hupdates)

theorem wire_mem {c : Construct} (hc : c ∈ d.constructs) {x : String}
    (hx : x ∈ [c.canFire, c.firing]) : .wire x .bit ∈ (d.elaborated names).statements := by
  have hblock : .wire x .bit ∈ (c.block names).statements := by
    simp only [List.mem_cons, List.not_mem_nil, or_false] at hx
    rcases hx with rfl | rfl
    · exact List.mem_cons_self ..
    · exact List.mem_cons_of_mem _ (List.mem_cons_self ..)
  refine List.mem_append_left _ (List.mem_append_left _ (List.mem_append_right _ ?_))
  exact List.mem_flatMap.mpr ⟨_, List.mem_map_of_mem hc, hblock⟩

theorem declaration_mem (h : names.Native) {s : State} {x : String} (hmem : (s, x) ∈ names) :
    ∃ statement ∈ (d.elaborated names).statements, declareState x s = .ok statement := by
  refine ⟨declaration (s, x), ?_, declareState_eq_ok.mpr ⟨h _ hmem, rfl⟩⟩
  refine List.mem_append_left _ (List.mem_append_left _ (List.mem_append_left _ ?_))
  exact List.mem_map_of_mem hmem

end

/-- What a module has to do with the design that it is made of, as far as names and drivers go. -/
structure Wired (d : Design) (names : StateNames) (m : Module) : Prop where
  distinct : m.names.Nodup
  known : Stmt.Scoped (m.ports.map Port.name) m.statements
  inputs : ∀ p ∈ m.ports, p.dir = .input → m.driven.count p.name = 0
  outputs : ∀ p ∈ m.ports, p.dir = .output → m.driven.count p.name = 1
  signals : ∀ c ∈ d.constructs, ∀ x ∈ [c.canFire, c.firing],
    .wire x .bit ∈ m.statements ∧ m.driven.count x = 1
  mentioned : ∀ s, (∃ x, (s, x) ∈ names) ↔ d.Mentions s
  state : ∀ s x, (s, x) ∈ names →
    (∃ statement ∈ m.statements, declareState x s = .ok statement) ∧
      m.driven.count x = if d.Updates s then 1 else 0

/-- The module that a finished design is elaborated to has distinct names, refers only to what is
known, drives no input, and drives each output, each signal and each state element that is updated
exactly once. -/
theorem elaborate_wired (id : ℕ) (name : String) (calls : List Call) (d : Design) (circuit : Circuit)
    (hdesign : ((BuildSession.start id name).run calls).design = .ok d)
    (hplain : ∀ c ∈ d.constructs, ∀ e ∈ c.expressions, e.refs = [])
    (h : d.elaborate = .ok circuit) :
    ∃ m names, circuit.modules = [m] ∧ d.stateNames = .ok names ∧ Wired d names m := by
  obtain ⟨names, hnames, hnaming, rfl, -⟩ := Design.elaborate_naming h
  have hclosed : d.Closed := fun c hc e he =>
    ⟨(BuildSession.coherent hdesign c hc).expressions e he, hplain c hc e he⟩
  refine ⟨d.elaborated names, names, rfl, hnames, ?_⟩
  constructor
  · exact (names_perm hnaming.native).nodup_iff.mpr hnaming.distinct
  · exact scoped_elaborated hclosed hnaming
  · intro p hp hdir
    rcases port_cases hp with ⟨-, hx⟩ | ⟨hout, -⟩
    · exact hnaming.driven_input hx
    · rw [hdir] at hout
      cases hout
  · intro p hp hdir
    rcases port_cases hp with ⟨hin, -⟩ | ⟨-, c, hc, hx⟩
    · rw [hdir] at hin
      cases hin
    · exact hnaming.driven_signal hc (Construct.output_mem_signals hx)
  · intro c hc x hx
    have hsignal : x ∈ c.signals := List.mem_append_left c.outputs hx
    exact ⟨wire_mem hc hx, hnaming.driven_signal hc hsignal⟩
  · intro s
    rw [← hnaming.mentioned, List.mem_map]
    exact ⟨fun ⟨x, hx⟩ => ⟨(s, x), hx, rfl⟩, fun ⟨⟨t, x⟩, hx, ht⟩ => ⟨x, ht ▸ hx⟩⟩
  · exact fun s x hmem => ⟨declaration_mem hnaming.native hmem, hnaming.driven_state hmem⟩

/-! A design whose names invite collisions: two registers and a wire of the rule would all like to be
called `M_go_firing`. One of the calls is refused. -/

namespace Tangled

def old : State := ⟨0, .register (some 0), "go_firing", .uint 4⟩

def new : State := ⟨1, .register none, "go_firing", .uint 4⟩

def flag : State := ⟨2, .wire, "", .bit⟩

def operand : Argument := ⟨0, "put", "x", .uint 4⟩

def calls : List Call := [
  .declare [some old, some new],
  .rule "M_go",
  .edit "M_go" (.guard (.ne (.leaf (.state old)) (.leaf (.state new)))),
  .edit "M_go" (.update (some old) (.leaf (.state new))),
  .edit "M_go" .build,
  .rule "M_go",
  .action "put" [⟨"x", .uint 4⟩],
  .edit "put" (.update (some old) (.leaf (.argument operand))),
  .edit "put" (.update (some flag) .one),
  .edit "put" (.display "%d" [.leaf (.argument operand)]),
  .edit "put" .build,
  .value "peek" (.uint 4),
  .edit "peek" (.result (.leaf (.state new))),
  .edit "peek" .build]

def design : Design where
  name := "M"
  state := [old, new]
  rules := [⟨"M_go", .ne (.leaf (.state old)) (.leaf (.state new)), [], [⟨old, .leaf (.state new)⟩]⟩]
  methods := [
    .action ⟨"put", .one, [.display "%d" [.leaf (.argument operand)]],
      [⟨old, .leaf (.argument operand)⟩, ⟨flag, .one⟩]⟩ [operand],
    .value ⟨"peek", .one, [], []⟩ (.uint 4) (.leaf (.state new))]

def names : StateNames := [(old, "M_go_firing_0"), (new, "M_go_firing_1"), (flag, "M_wire")]

end Tangled

theorem elaborate_wired_tangled :
    ((BuildSession.start 0 "M").run Tangled.calls).design = .ok Tangled.design ∧
    ∃ circuit m, Tangled.design.elaborate = .ok circuit ∧ circuit.modules = [m] ∧
      Wired Tangled.design Tangled.names m := by
  have hdesign : ((BuildSession.start 0 "M").run Tangled.calls).design = .ok Tangled.design := by
    decide +kernel
  have hnames : Tangled.design.stateNames = .ok Tangled.names := by decide +kernel
  have hok : Tangled.design.elaborate.isOk := by decide +kernel
  refine ⟨hdesign, ?_⟩
  cases h : Tangled.design.elaborate with
  | error e => rw [h] at hok; cases hok
  | ok circuit =>
    obtain ⟨m, names, hm, hnames', hwired⟩ :=
      elaborate_wired 0 "M" Tangled.calls Tangled.design circuit hdesign (by decide +kernel) h
    rw [hnames] at hnames'
    cases hnames'
    exact ⟨circuit, m, rfl, hm, hwired⟩

end GuardedRtl
