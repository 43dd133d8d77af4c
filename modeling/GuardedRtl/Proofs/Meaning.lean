import GuardedRtl.Proofs.Wiring

/-! Expressions of a design and of its circuit mean the same. A design reads its leaves where a circuit
reads the names of those leaves, so lowering changes neither the exact value of an expression nor
whether it has one; and a circuit settles so that every connection has its value. -/

namespace GuardedRtl

open Rtl

namespace Rtl

theorem Expr.parts_trans {e p q : Expr} (hp : p ∈ e.parts) (hq : q ∈ p.parts) : q ∈ e.parts := by
  induction e with
  | absent => cases hp
  | ref x | literal v t | leaf l =>
    rw [List.mem_singleton.mp hp] at hq
    exact hq
  | mux s a b ihs iha ihb =>
    rcases List.mem_cons.mp hp with rfl | hp
    · exact hq
    · simp only [Expr.parts, List.mem_append, List.mem_cons] at hp ⊢
      rcases hp with (hp | hp) | hp
      · exact .inr (.inl (.inl (ihs hp)))
      · exact .inr (.inl (.inr (iha hp)))
      · exact .inr (.inr (ihb hp))
  | validIf a b iha ihb | binary op a b iha ihb | compare op a b iha ihb
  | shiftLeft a n b iha ihb | shiftRight a n b iha ihb =>
    rcases List.mem_cons.mp hp with rfl | hp
    · exact hq
    · simp only [Expr.parts, List.mem_append, List.mem_cons] at hp ⊢
      rcases hp with hp | hp
      · exact .inr (.inl (iha hp))
      · exact .inr (.inr (ihb hp))
  | unary op a ih | pad a w ih | bits a hi lo ih | head a n ih | tail a n ih =>
    rcases List.mem_cons.mp hp with rfl | hp
    · exact hq
    · exact List.mem_cons_of_mem _ (ih hp)

theorem Expr.refs_of_mem_parts {e p : Expr} (hp : p ∈ e.parts) (h : e.refs = []) : p.refs = [] := by
  rw [Expr.refs_eq_nil_iff] at h ⊢
  exact fun q hq => h q (Expr.parts_trans hp hq)

end Rtl

/-- What the leaves of a design stand for where the circuit has the values `env`. -/
def leafReading (names : StateNames) (env : Env) : Reading where
  name := fun _ => none
  leaf := fun
    | .state s => (env (names.get s)).map Value.number
    | .argument a => (env a.port).map Value.number
    | _ => none

section

variable {names : StateNames} {env : Env}

theorem isPresent_renamed (e : Expr) : (renamed names e).isPresent = e.isPresent := by
  rw [Bool.eq_iff_iff, Expr.isPresent_iff, Expr.isPresent_iff, ne_eq, renamed_eq_absent]

theorem exact_renamed {e : Expr} (h : e.refs = []) :
    (renamed names e).exact env.reading = e.exact (leafReading names env) := by
  induction e with
  | absent | literal v t => rfl
  | ref x => cases h
  | leaf l => cases l <;> rfl
  | mux s a b ihs iha ihb =>
    obtain ⟨hs, ha, hb⟩ := Expr.refs_operands h
    simp only [Expr.mapAtoms, Expr.exact, ihs hs, iha ha, ihb hb]
  | validIf a b iha ihb | binary op a b iha ihb | compare op a b iha ihb
  | shiftLeft a n b iha ihb | shiftRight a n b iha ihb =>
    obtain ⟨ha, hb⟩ := Expr.refs_operands h
    simp only [Expr.mapAtoms, Expr.exact, iha ha, ihb hb, isPresent_renamed]
  | unary op a ih | pad a w ih | bits a hi lo ih | head a n ih | tail a n ih =>
    simp only [Expr.mapAtoms, Expr.exact, ih (Expr.refs_operands h)]

theorem supported_renamed {e : Expr} (h : e.refs = []) :
    (renamed names e).Supported env.reading ↔ e.Supported (leafReading names env) := by
  cases e with
  | ref x => cases h
  | leaf l => cases l <;> rfl
  | literal v t => cases t <;> rfl
  | bits a hi lo | head a n | tail a n =>
    simp only [Expr.mapAtoms, Expr.Supported, exact_renamed (Expr.refs_operands h)]
  | _ => rfl

theorem evaluable_renamed {e : Expr} (h : e.refs = []) :
    (renamed names e).Evaluable env.reading ↔ e.Evaluable (leafReading names env) := by
  rw [Expr.Evaluable, parts_renamed, List.forall_mem_map]
  refine forall₂_congr fun p hp => ?_
  have hrefs := Expr.refs_of_mem_parts hp h
  rw [supported_renamed hrefs, exact_renamed hrefs]

theorem modestShifts_renamed {e : Expr} (h : e.ModestShifts) : (renamed names e).ModestShifts := by
  intro a n hmem
  rw [parts_renamed] at hmem
  obtain ⟨p, hp, heq⟩ := List.mem_map.mp hmem
  cases p with
  | shiftLeft b k amount =>
    simp only [Expr.mapAtoms, Expr.shiftLeft.injEq] at heq
    obtain ⟨-, rfl, hamount⟩ := heq
    rw [renamed_eq_absent.mp hamount] at hp
    exact h b k hp
  | leaf l => cases l <;> cases heq
  | _ => cases heq

end

/-! Connections of a circuit that passes the check -/

theorem accepted_of_check {name : String} {m : Module} (h : (Node.circuit ⟨name, [m]⟩).check = .ok ())
    {lhs : String} {rhs : Expr} (hmem : .connect lhs rhs ∈ m.statements) :
    rhs.isPresent ∧ rhs.Accepted := by
  have hcircuit : AllAccepted [Circuit.tree ⟨name, [m]⟩] := h
  rw [Circuit.tree, allAccepted_singleton] at hcircuit
  obtain ⟨-, -, hmodule⟩ := hcircuit
  rw [List.map_singleton, Module.tree, allAccepted_singleton, allAccepted_append,
    allAccepted_flatMap] at hmodule
  have hstmt := hmodule.2.2.2 _ hmem
  rw [Stmt.trees, allAccepted_singleton, allAccepted_append] at hstmt
  obtain ⟨hself, -, -, hrhs⟩ := hstmt
  refine ⟨?_, hrhs⟩
  simp only [Node.checkSelf, Stmt.checkSelf] at hself
  split_ifs at hself
  exact requireOperands_ok.mp hself ("Rhs", rhs) (List.mem_singleton_self _)

/-! The order of a circuit's statements -/

theorem reads_subset_refs (s : Stmt) : s.reads ⊆ s.refs := by
  cases s with
  | connect lhs rhs => exact List.subset_cons_self ..
  | _ => exact List.nil_subset _

section

variable {d : Design} {names : StateNames}

/-- The statements that follow the declaration of the state. -/
def Design.body (d : Design) (names : StateNames) : List Stmt :=
  (d.constructs.map (Construct.block names)).flatMap Block.statements ++ d.scheduler ++ d.drives names

theorem statements_body : (d.elaborated names).statements =
    names.map declaration ++ d.body names := by
  simp only [statements_elaborated, Design.preamble, Design.body, List.append_assoc]

theorem driven_body : (d.body names).flatMap Stmt.driven = (d.elaborated names).driven := by
  rw [Module.driven, statements_body, List.flatMap_append, List.flatMap_map]
  simp only [driven_declaration]
  simp

theorem ordered_block (hclosed : d.Closed) (hnaming : d.Naming names) {c : Construct}
    (hc : c ∈ d.constructs) :
    Stmt.Ordered Stmt.reads Stmt.driven (d.inputs ++ names.map Prod.snd)
      (c.block names).statements := by
  have hrefs : ∀ e ∈ c.expressions, (renamed names e).refs ⊆ d.inputs ++ names.map Prod.snd := by
    intro e he x hx
    rcases hclosed.refs hnaming hc he hx with hx | hx
    · exact List.mem_append_left _ (mem_inputs_of_mem hc hx)
    · exact List.mem_append_right _ hx
  have hguard := hrefs c.core.guard (List.mem_cons_self ..)
  refine ⟨List.nil_subset _, List.nil_subset _, by simpa [Stmt.driven, Stmt.reads] using hguard, ?_⟩
  simp only [Stmt.driven, List.append_nil]
  refine Stmt.ordered_of_forall fun s hs => ?_
  rcases List.mem_append.mp hs with hs | hs
  · obtain ⟨e, -, rfl⟩ := List.mem_map.mp hs
    cases e <;> exact List.nil_subset _
  · rcases mem_outputStatements hs with ⟨m, rfl, rfl⟩ | ⟨r, type, e, rfl, rfl⟩
    · exact List.subset_append_right ..
    · exact List.subset_append_of_subset_left _ (hrefs e Construct.result_mem)

theorem ordered_body (hclosed : d.Closed) (hnaming : d.Naming names) :
    Stmt.Ordered Stmt.reads Stmt.driven (d.inputs ++ names.map Prod.snd) (d.body names) := by
  have hblocks : Stmt.Ordered Stmt.reads Stmt.driven (d.inputs ++ names.map Prod.snd)
      ((d.constructs.map (Construct.block names)).flatMap Block.statements) := by
    refine Stmt.ordered_flatMap fun b hb => ?_
    obtain ⟨c, hc, rfl⟩ := List.mem_map.mp hb
    exact ordered_block hclosed hnaming hc
  have hdriven : ((d.constructs.map (Construct.block names)).flatMap Block.statements).flatMap
      Stmt.driven = d.constructs.flatMap fun c => c.canFire :: c.outputs := by
    rw [List.flatMap_assoc, List.flatMap_map]
    simp only [driven_block]
  refine (hblocks.append ?_).append ?_
  · refine Stmt.ordered_of_forall fun s hs x hx => ?_
    rw [hdriven]
    obtain ⟨c, hc, e, he, rfl⟩ := mem_scheduler hs
    rcases refs_firingSignals he hx with hx | ⟨c', hc', rfl⟩
    · exact List.mem_append_left _ (List.mem_append_left _ hx)
    · exact List.mem_append_right _ (List.mem_flatMap.mpr ⟨c', hc', List.mem_cons_self ..⟩)
  · refine Stmt.ordered_of_forall fun s hs x hx => ?_
    rw [List.flatMap_append, driven_scheduler]
    rcases refs_drives hclosed hnaming hs (reads_subset_refs s hx) with hx | hx | ⟨c, hc, rfl⟩
    · exact List.mem_append_left _ (List.mem_append_left _ hx)
    · exact List.mem_append_left _ (List.mem_append_right _ hx)
    · exact List.mem_append_right _ (List.mem_append_right _ (List.mem_map_of_mem hc))

theorem mem_driveState {n : State × String} {ds : List Driver} {s : Stmt}
    (hs : s ∈ driveState n.2 n.1 ds) : ∃ e, s = .connect n.2 e := by
  cases ds with
  | nil => cases hs
  | cons driver ds =>
    rw [driveState] at hs
    split at hs
    · exact ⟨_, List.mem_singleton.mp hs⟩
    · exact ⟨_, List.mem_singleton.mp hs⟩
    · cases hs

theorem register_not_mem_body (name : String) (type : Ty) (clock : Expr) (reset : Option Reset) :
    .register name type clock reset ∉ d.body names := by
  intro hmem
  rcases List.mem_append.mp hmem with hmem | hmem
  · rcases List.mem_append.mp hmem with hmem | hmem
    · obtain ⟨b, hb, hmem⟩ := List.mem_flatMap.mp hmem
      obtain ⟨c, -, rfl⟩ := List.mem_map.mp hb
      rcases List.mem_append.mp hmem with hmem | hmem
      · simp only [List.mem_cons, reduceCtorEq, false_or] at hmem
        obtain ⟨e, -, he⟩ := List.mem_map.mp hmem
        cases e <;> cases he
      · rcases mem_outputStatements hmem with ⟨m, -, h⟩ | ⟨r, type, e, -, h⟩ <;> cases h
    · obtain ⟨c, -, e, -, h⟩ := mem_scheduler hmem
      cases h
  · obtain ⟨n, -, hmem⟩ := List.mem_flatMap.mp hmem
    obtain ⟨e, h⟩ := mem_driveState hmem
    cases h

theorem run_declares {names : StateNames} (h : ∀ n ∈ names, ∃ reset, n.1.storage = .register reset)
    (registers : List String) (env : Env) :
    Settling.run ⟨registers, env⟩ (names.map declaration) =
      (⟨(names.map Prod.snd).reverse ++ registers, env⟩, []) := by
  induction names generalizing registers with
  | nil => rfl
  | cons n names ih =>
    obtain ⟨⟨reset, hreset⟩, hrest⟩ := List.forall_mem_cons.mp h
    have hstep : Settling.step ⟨registers, env⟩ (declaration n) = (⟨n.2 :: registers, env⟩, []) := by
      rw [declaration, declareState, hreset]
      rfl
    rw [List.map_cons, Settling.run_cons, hstep, ih hrest]
    simp

/-- A circuit whose state is all registers settles so that every connection has its value. -/
theorem Design.solution (hclosed : d.Closed) (hnaming : d.Naming names)
    (hregisters : ∀ n ∈ names, ∃ reset, n.1.storage = .register reset) (env : Env) :
    Solution (names.map Prod.snd).reverse (d.body names) env
      (Settling.run ⟨[], env⟩ (d.elaborated names).statements).1.env
      (Settling.run ⟨[], env⟩ (d.elaborated names).statements).2 := by
  rw [statements_body, Settling.run_append, run_declares hregisters, List.append_nil]
  refine Settling.run_solution (s := ⟨(names.map Prod.snd).reverse, env⟩) register_not_mem_body
    (ordered_body hclosed hnaming) ?_ ?_
  · rw [driven_body]
    exact hnaming.driven_nodup
  · rw [driven_body]
    refine List.forall_mem_append.mpr ⟨fun x hx => ?_, fun x hx => .inl (List.mem_reverse.mpr hx)⟩
    exact .inr (List.count_eq_zero.mp (hnaming.driven_input hx))

end

end GuardedRtl
