import GuardedRtl.Proofs.Sifting

/-! Visits and changes go through the same tree. The tree of a node is the one that following its
children makes. A visit that goes on everywhere meets its nodes in pre-order, a change that keeps every
node gives the same node back and meets them in post-order; only a list with an element that is not
there stops the change, where the visit passes over the gap. -/

namespace GuardedRtl.Rtl

/-! The tree that children make -/

/-- Every node of the tree is there, and has in the tree the children that it has as a node, in their
order. -/
inductive Tree.Grown : Tree → Prop
  | node {n : Node} {cs : List Tree} (hpresent : n.isPresent)
      (hchildren : n.children = .ok (cs.map Tree.root)) (hcs : ∀ c ∈ cs, c.Grown) :
      Tree.Grown (.node n cs)

/-- A tree is that of its root. -/
def Tree.IsOwn (t : Tree) : Prop := t.root.isPresent ∧ t.root.trees = [t]

theorem Ty.isOwn_trees (type : Ty) : ∀ t ∈ type.trees, t.root = .type type ∧ t.IsOwn := by
  intro t ht
  cases type with
  | absent => cases ht
  | _ => cases List.mem_singleton.mp ht; exact ⟨rfl, rfl, rfl⟩

theorem Field.isOwn_trees (fields : List Field) : ∀ t ∈ Field.trees fields, t.IsOwn := by
  induction fields with
  | nil => intro t ht; cases ht
  | cons f fields ih =>
    obtain ⟨name, type⟩ := f
    intro t ht
    rcases List.mem_cons.mp ht with rfl | ht
    · exact ⟨rfl, rfl⟩
    · exact ih t ht

theorem Expr.isOwn_trees (e : Expr) : ∀ t ∈ e.trees, t.root = .expr e ∧ t.IsOwn := by
  intro t ht
  cases e with
  | absent => cases ht
  | _ => cases List.mem_singleton.mp ht; exact ⟨rfl, rfl, rfl⟩

theorem Stmt.isOwn_trees (s : Stmt) : ∀ t ∈ s.trees, t.root = .stmt s ∧ t.IsOwn := by
  intro t ht
  cases s with
  | absent => cases ht
  | _ => cases List.mem_singleton.mp ht; exact ⟨rfl, rfl, rfl⟩

theorem Node.isOwn_trees (n : Node) : ∀ t ∈ n.trees, t.root = n ∧ t.IsOwn := by
  intro t ht
  cases n with
  | type type => exact type.isOwn_trees t ht
  | expr e => exact e.isOwn_trees t ht
  | stmt s => exact s.isOwn_trees t ht
  | _ => cases List.mem_singleton.mp ht; exact ⟨rfl, rfl, rfl⟩

theorem Ty.isOwn_children (type : Ty) : ∀ t ∈ type.trees, ∀ c ∈ t.children, c.IsOwn := by
  intro t ht c hc
  cases type with
  | absent => cases ht
  | vector elem count => cases List.mem_singleton.mp ht; exact (elem.isOwn_trees c hc).2
  | bundle fields => cases List.mem_singleton.mp ht; exact Field.isOwn_trees fields c hc
  | _ => cases List.mem_singleton.mp ht; cases hc

theorem Expr.isOwn_children (e : Expr) : ∀ t ∈ e.trees, ∀ c ∈ t.children, c.IsOwn := by
  intro t ht c hc
  cases e with
  | absent => cases ht
  | ref name | leaf l => cases List.mem_singleton.mp ht; cases hc
  | literal v type => cases List.mem_singleton.mp ht; exact (type.isOwn_trees c hc).2
  | mux s a b =>
    cases List.mem_singleton.mp ht
    simp only [Tree.children, List.mem_append] at hc
    rcases hc with (hc | hc) | hc
    · exact (s.isOwn_trees c hc).2
    · exact (a.isOwn_trees c hc).2
    · exact (b.isOwn_trees c hc).2
  | validIf a b | binary op a b | compare op a b | shiftLeft a n b | shiftRight a n b =>
    cases List.mem_singleton.mp ht
    rcases List.mem_append.mp hc with hc | hc
    · exact (a.isOwn_trees c hc).2
    · exact (b.isOwn_trees c hc).2
  | unary op a | pad a w | bits a hi lo | head a n | tail a n =>
    cases List.mem_singleton.mp ht
    exact (a.isOwn_trees c hc).2

theorem Stmt.isOwn_children (s : Stmt) : ∀ t ∈ s.trees, ∀ c ∈ t.children, c.IsOwn := by
  intro t ht c hc
  cases s with
  | absent => cases ht
  | connect lhs rhs =>
    cases List.mem_singleton.mp ht
    rcases List.mem_append.mp hc with hc | hc
    · exact ((Expr.ref lhs).isOwn_trees c hc).2
    · exact (rhs.isOwn_trees c hc).2
  | register name type clock reset =>
    cases List.mem_singleton.mp ht
    simp only [Tree.children, List.mem_append, Option.mem_toList, Option.map_eq_some_iff] at hc
    rcases hc with (hc | hc) | ⟨r, -, rfl⟩
    · exact (type.isOwn_trees c hc).2
    · exact (clock.isOwn_trees c hc).2
    · exact ⟨rfl, rfl⟩
  | wire name type => cases List.mem_singleton.mp ht; exact (type.isOwn_trees c hc).2
  | printf clock condition format args =>
    cases List.mem_singleton.mp ht
    simp only [Tree.children, List.mem_append, List.mem_flatMap] at hc
    rcases hc with (hc | hc) | ⟨e, -, hc⟩
    · exact (clock.isOwn_trees c hc).2
    · exact (condition.isOwn_trees c hc).2
    · exact (e.isOwn_trees c hc).2
  | stop clock condition exitCode =>
    cases List.mem_singleton.mp ht
    rcases List.mem_append.mp hc with hc | hc
    · exact (clock.isOwn_trees c hc).2
    · exact (condition.isOwn_trees c hc).2
  | foreign kind => cases List.mem_singleton.mp ht; cases hc

theorem Node.isOwn_children (n : Node) : ∀ t ∈ n.trees, ∀ c ∈ t.children, c.IsOwn := by
  intro t ht c hc
  cases n with
  | type type => exact type.isOwn_children t ht c hc
  | field f => cases List.mem_singleton.mp ht; exact (f.type.isOwn_trees c hc).2
  | expr e => exact e.isOwn_children t ht c hc
  | stmt s => exact s.isOwn_children t ht c hc
  | reset r =>
    cases List.mem_singleton.mp ht
    rcases List.mem_append.mp hc with hc | hc
    · exact (r.enable.isOwn_trees c hc).2
    · exact (r.value.isOwn_trees c hc).2
  | port p => cases List.mem_singleton.mp ht; exact (p.type.isOwn_trees c hc).2
  | module m =>
    cases List.mem_singleton.mp ht
    rcases List.mem_append.mp hc with hc | hc
    · obtain ⟨p, -, rfl⟩ := List.mem_map.mp hc
      exact ⟨rfl, rfl⟩
    · obtain ⟨s, -, hc⟩ := List.mem_flatMap.mp hc
      exact (s.isOwn_trees c hc).2
  | circuit circuit =>
    cases List.mem_singleton.mp ht
    obtain ⟨m, -, rfl⟩ := List.mem_map.mp hc
    exact ⟨rfl, rfl⟩

mutual

theorem Tree.grown_of_isOwn (t : Tree) (hown : t.IsOwn) (hknown : ∀ n ∈ t.preorder, n.isKnown) :
    t.Grown := by
  cases t with
  | node n cs =>
    obtain ⟨hpresent, htrees⟩ := hown
    have hchildren : n.children = .ok (cs.map Tree.root) := by
      rw [Node.children, if_pos (hknown n List.mem_cons_self), show n.trees = _ from htrees]
      simp [Tree.children]
    refine .node hpresent hchildren (Tree.grownAll_of_isOwn cs ?_ ?_)
    · refine n.isOwn_children (.node n cs) ?_
      rw [show n.trees = _ from htrees]
      exact List.mem_singleton_self _
    · exact fun k hk => hknown k (List.mem_cons_of_mem _ hk)
termination_by structural t

theorem Tree.grownAll_of_isOwn (ts : List Tree) (hown : ∀ t ∈ ts, t.IsOwn)
    (hknown : ∀ n ∈ Tree.preorderAll ts, n.isKnown) : ∀ t ∈ ts, t.Grown := by
  cases ts with
  | nil => exact fun t ht => absurd ht List.not_mem_nil
  | cons t ts =>
    rw [List.forall_mem_cons] at hown ⊢
    refine ⟨Tree.grown_of_isOwn t hown.1 ?_, Tree.grownAll_of_isOwn ts hown.2 ?_⟩
    · exact fun n hn => hknown n (List.mem_append_left _ hn)
    · exact fun n hn => hknown n (List.mem_append_right _ hn)
termination_by structural ts

end

/-! Meeting every node -/

section

variable {m : Type → Type} [Monad m] [LawfulMonad m] [MonadExceptOf Error m] {note : Node → m Unit}

/-- The work ends for want of an element or a field, after some nodes have been met. -/
def Refused {α : Type} (note : Node → m Unit) (x : m α) : Prop :=
  ∃ (met : List Node) (owner field : String), x = (do forM met note; throw (missing owner field))

/-- The work gives a node, after some nodes have been met. -/
def Kept (note : Node → m Unit) (n : Node) (x : m (Option Node)) : Prop :=
  ∃ met : List Node, x = (do forM met note; pure (some n))

theorem Refused.after {α : Type} {x : m α} (hx : Refused note x) (before : List Node) :
    Refused note (do forM before note; x) := by
  obtain ⟨met, owner, field, rfl⟩ := hx
  exact ⟨before ++ met, owner, field, by rw [List.forM_append, bind_assoc]⟩

theorem Refused.after_sweep {α : Type} {x : m α} (hx : Refused note x) (os : List Occurrence) :
    Refused note (do sweep note never os; x) := by
  rw [sweep_never]
  exact hx.after _

variable [StopsAtThrow m]

theorem Refused.bind {α β : Type} {x : m α} (hx : Refused note x) (next : α → m β) :
    Refused note (x >>= next) := by
  obtain ⟨met, owner, field, rfl⟩ := hx
  exact ⟨met, owner, field, by rw [bind_assoc, StopsAtThrow.throw_bind]⟩

/-- A list with an element that is not there, or that is refused, is refused if the others are kept. -/
theorem refillList_refused {α : Type} (node : α → Node) {owner field : String}
    {isPresent : α → Bool} {cast : Node → Option α} {change : α → m (Option Node)} {as : List α}
    (hcast : ∀ a, cast (node a) = some a)
    (h : ∀ a ∈ as, isPresent a → Kept note (node a) (change a) ∨ Refused note (change a))
    (hbad : ∃ a ∈ as, isPresent a → Refused note (change a)) :
    Refused note (refillList owner field isPresent cast change as) := by
  induction as with
  | nil =>
    obtain ⟨a, ha, -⟩ := hbad
    cases ha
  | cons a as ih =>
    obtain ⟨ha, has⟩ := List.forall_mem_cons.mp h
    rw [refillList]
    split_ifs with hp
    · rcases ha hp with ⟨met, hkept⟩ | hrefused
      · obtain ⟨b, hb, hbad⟩ := hbad
        rcases List.mem_cons.mp hb with rfl | hb
        · exact (hbad hp).bind _
        · -- The element is kept, so the gap is found further on.
          have hrest := ih has ⟨b, hb, hbad⟩
          rw [hkept, bind_assoc]
          refine Refused.after ?_ met
          simpa [required, hcast] using hrest.bind fun bs => pure (a :: bs)
      · exact hrefused.bind _
    · exact ⟨[], owner, field, (pure_bind () fun _ => throw _).symm⟩

theorem Expr.transform_kept {e : Expr} (hpresent : e.isPresent) :
    Kept note (.expr e) (e.transform (sift note never)) :=
  ⟨_, (e.transform_sift hpresent).trans (sweep_sift_never e.held (.expr e))⟩

theorem Stmt.transform_refused {s : Stmt} (h : ¬ (Node.stmt s).isFilled) :
    Refused note (s.transform (sift note never)) := by
  cases s with
  | printf clock condition format args =>
    have hgap : ∃ a ∈ args, ¬ a.isPresent := by simpa [Node.isFilled] using h
    obtain ⟨a, ha, habsent⟩ := hgap
    simp only [transform, Expr.refill_transform, bind_assoc, pure_bind]
    refine Refused.after_sweep (Refused.after_sweep (Refused.bind ?_ _) _) _
    exact refillList_refused .expr (fun _ => rfl) (fun _ _ hp => .inl (Expr.transform_kept hp))
      ⟨a, ha, fun hp => absurd hp habsent⟩
  | _ => exact absurd rfl h

/-- A statement is kept, or refused if one of its lists has a gap. -/
theorem Stmt.transform_kept_or_refused {s : Stmt} (hpresent : s.isPresent) :
    Kept note (.stmt s) (s.transform (sift note never)) ∨
      Refused note (s.transform (sift note never)) := by
  by_cases hfilled : (Node.stmt s).isFilled
  · exact .inl ⟨_, (s.transform_sift hpresent hfilled).trans (sweep_sift_never s.held (.stmt s))⟩
  · exact .inr (Stmt.transform_refused hfilled)

theorem Module.transform_refused {mod : Module}
    (h : ∃ s ∈ mod.statements, ¬ (s.isPresent ∧ (Node.stmt s).isFilled)) :
    Refused note (mod.transform (sift note never)) := by
  obtain ⟨s, hs, hgap⟩ := h
  simp only [transform, refillPorts_sift, bind_assoc, pure_bind]
  refine Refused.after_sweep (Refused.bind ?_ _) _
  exact refillList_refused .stmt (fun _ => rfl)
    (fun _ _ hp => Stmt.transform_kept_or_refused hp)
    ⟨s, hs, fun hp => Stmt.transform_refused fun hfilled => hgap ⟨hp, hfilled⟩⟩

theorem Module.transform_kept_or_refused (mod : Module) :
    Kept note (.module mod) (mod.transform (sift note never)) ∨
      Refused note (mod.transform (sift note never)) := by
  by_cases hfilled : ∀ s ∈ mod.statements, s.isPresent ∧ (Node.stmt s).isFilled
  · exact .inl ⟨_, (mod.transform_sift hfilled).trans (sweep_sift_never mod.held (.module mod))⟩
  · simp only [not_forall] at hfilled
    obtain ⟨s, hs, hgap⟩ := hfilled
    exact .inr (Module.transform_refused ⟨s, hs, hgap⟩)

theorem Circuit.transform_refused {c : Circuit}
    (h : ∃ mod ∈ c.modules, ∃ s ∈ mod.statements, ¬ (s.isPresent ∧ (Node.stmt s).isFilled)) :
    Refused note (c.transform (sift note never)) := by
  obtain ⟨mod, hmod, hgap⟩ := h
  refine Refused.bind ?_ _
  exact refillList_refused .module (fun _ => rfl)
    (fun mod _ _ => mod.transform_kept_or_refused) ⟨mod, hmod, fun _ => Module.transform_refused hgap⟩

end

/-! Where a gap can be -/

/-- No list of a node of the trees has a gap. -/
def AllFilled (ts : List Tree) : Prop := Throughout (fun k => k.isFilled) ts

mutual

theorem Ty.allFilled (t : Ty) : AllFilled t.trees := by
  cases t with
  | absent => exact throughout_nil
  | vector elem count => exact throughout_singleton.mpr ⟨rfl, Ty.allFilled elem⟩
  | bundle fields => exact throughout_singleton.mpr ⟨rfl, Field.allFilled fields⟩
  | _ => exact throughout_singleton.mpr ⟨rfl, throughout_nil⟩
termination_by structural t

theorem Field.allFilled (fields : List Field) :
    AllFilled (Field.trees fields) := by
  cases fields with
  | nil => exact throughout_nil
  | cons f fields =>
    obtain ⟨name, type⟩ := f
    have hfield : AllFilled [.node (.field ⟨name, type⟩) type.trees] :=
      throughout_singleton.mpr ⟨rfl, Ty.allFilled type⟩
    exact throughout_append.mpr ⟨hfield, Field.allFilled fields⟩
termination_by structural fields

end

theorem Expr.allFilled (e : Expr) : AllFilled e.trees := by
  induction e with
  | absent => exact throughout_nil
  | ref name | leaf l => exact throughout_singleton.mpr ⟨rfl, throughout_nil⟩
  | literal v type => exact throughout_singleton.mpr ⟨rfl, type.allFilled⟩
  | mux s a b ihs iha ihb =>
    exact throughout_singleton.mpr
      ⟨rfl, throughout_append.mpr ⟨throughout_append.mpr ⟨ihs, iha⟩, ihb⟩⟩
  | validIf a b iha ihb | binary op a b iha ihb | compare op a b iha ihb
  | shiftLeft a n b iha ihb | shiftRight a n b iha ihb =>
    exact throughout_singleton.mpr ⟨rfl, throughout_append.mpr ⟨iha, ihb⟩⟩
  | unary op a ih | pad a w ih | bits a hi lo ih | head a n ih | tail a n ih =>
    exact throughout_singleton.mpr ⟨rfl, ih⟩

theorem Reset.allFilled (r : Reset) : AllFilled [r.tree] :=
  throughout_singleton.mpr
    ⟨rfl, throughout_append.mpr ⟨r.enable.allFilled, r.value.allFilled⟩⟩

theorem Stmt.allFilled {s : Stmt} (h : (Node.stmt s).isFilled) :
    AllFilled s.trees := by
  cases s with
  | absent => exact throughout_nil
  | foreign kind => exact throughout_singleton.mpr ⟨rfl, throughout_nil⟩
  | connect lhs rhs =>
    exact throughout_singleton.mpr
      ⟨rfl, throughout_append.mpr ⟨(Expr.ref lhs).allFilled, rhs.allFilled⟩⟩
  | register name type clock reset =>
    refine throughout_singleton.mpr ⟨rfl, throughout_append.mpr
      ⟨throughout_append.mpr ⟨type.allFilled, clock.allFilled⟩, ?_⟩⟩
    cases reset with
    | none => exact throughout_nil
    | some r => exact r.allFilled
  | wire name type => exact throughout_singleton.mpr ⟨rfl, type.allFilled⟩
  | printf clock condition format args =>
    exact throughout_singleton.mpr ⟨h, throughout_append.mpr
      ⟨throughout_append.mpr ⟨clock.allFilled, condition.allFilled⟩,
        throughout_flatMap.mpr fun a _ => a.allFilled⟩⟩
  | stop clock condition exitCode =>
    exact throughout_singleton.mpr
      ⟨rfl, throughout_append.mpr ⟨clock.allFilled, condition.allFilled⟩⟩

theorem Module.allFilled {mod : Module}
    (h : ∀ s ∈ mod.statements, s.isPresent ∧ (Node.stmt s).isFilled) :
    AllFilled [mod.tree] := by
  refine throughout_singleton.mpr ⟨?_, throughout_append.mpr ⟨?_, ?_⟩⟩
  · exact List.all_eq_true.mpr fun s hs => (h s hs).1
  · rw [List.map_eq_flatMap]
    exact throughout_flatMap.mpr fun p _ =>
      throughout_singleton.mpr ⟨rfl, p.type.allFilled⟩
  · exact throughout_flatMap.mpr fun s hs => Stmt.allFilled (h s hs).2

/-- A node with a gap anywhere is refused. -/
theorem Node.transform_refused {m : Type → Type} [Monad m] [LawfulMonad m] [MonadExceptOf Error m]
    [StopsAtThrow m] {note : Node → m Unit} {n : Node} (h : ¬ ∀ k ∈ n.preorder, k.isFilled) :
    Refused note (n.transform (sift note never)) := by
  cases n with
  | type t => exact (h t.allFilled).elim
  | field f => exact (h (throughout_singleton.mpr ⟨rfl, f.type.allFilled⟩)).elim
  | expr e => exact (h e.allFilled).elim
  | stmt s => exact Stmt.transform_refused fun hfilled => h (Stmt.allFilled hfilled)
  | reset r => exact (h r.allFilled).elim
  | port p => exact (h (throughout_singleton.mpr ⟨rfl, p.type.allFilled⟩)).elim
  | module mod =>
    refine Module.transform_refused ?_
    by_contra hnone
    exact h (Module.allFilled fun s hs => not_not.mp fun hgap => hnone ⟨s, hs, hgap⟩)
  | circuit c =>
    refine Circuit.transform_refused ?_
    by_contra hnone
    refine h (throughout_singleton.mpr ⟨rfl, ?_⟩)
    rw [List.map_eq_flatMap]
    exact throughout_flatMap.mpr fun mod hmod => Module.allFilled fun s hs =>
      not_not.mp fun hgap => hnone ⟨mod, hmod, s, hs, hgap⟩

/-! Work that keeps a record -/

/-- Work that keeps the nodes it meets, also when it fails. -/
abbrev Recording := ExceptT Error (StateM (List Node))

instance : StopsAtThrow Recording := ⟨fun _ _ => rfl⟩

namespace Recording

/-- What the work gives, and the nodes that it has met, in order. -/
def report {α : Type} (x : Recording α) : Except Error α × List Node := x.run.run []

def record (n : Node) : Recording Unit := modify (· ++ [n])

/-- Records a node and goes on below it. -/
def descend (n : Node) : Recording Bool := do
  record n
  pure true

/-- Records a node and leaves it as it is. -/
def keep (n : Node) : Recording (Option Node) := do
  record n
  pure (some n)

theorem run_after_record {α : Type} (x : Recording α) (ns seen : List Node) :
    (do forM ns record; x : Recording α).run.run seen = x.run.run (seen ++ ns) := by
  induction ns generalizing seen with
  | nil => rw [List.append_nil]; rfl
  | cons n ns ih =>
    rw [List.forM_cons, bind_assoc, List.append_cons]
    exact ih (seen ++ [n])

theorem report_after_record {α : Type} (x : Recording α) (ns : List Node) :
    (do forM ns record; x : Recording α).report = x.run.run ns :=
  run_after_record x ns []

end Recording

open Recording

theorem Node.report_visit {n : Node} (hknown : ∀ k ∈ n.preorder, k.isKnown) :
    (n.visit descend).report = (.ok (), n.preorder) := by
  have hvisit : n.visit descend = forM n.preorder record :=
    Tree.visitAll_eq_forM (fun _ => rfl) n.trees fun k hk hunknown => absurd (hknown k hk) hunknown
  rw [hvisit, ← bind_pure (forM n.preorder record)]
  exact report_after_record (pure ()) n.preorder

theorem Node.report_transform {n : Node} (hpresent : n.isPresent)
    (hfilled : ∀ k ∈ n.preorder, k.isFilled) :
    (n.transform keep).report = (.ok (some n), n.postorder) := by
  have hnodes : n.held.map Occurrence.node ++ [n] = n.postorder := by
    rw [← n.map_occurrences, Node.occurrences, listed, if_pos hpresent, List.map_append]
    rfl
  rw [show keep = sift record never from rfl, n.transform_sift hpresent hfilled, sweep_sift_never,
    hnodes]
  exact report_after_record (pure (some n)) n.postorder

theorem Node.report_refused {n : Node} (h : ¬ ∀ k ∈ n.preorder, k.isFilled) :
    ∃ owner field met, (n.transform keep).report = (.error (missing owner field), met) := by
  obtain ⟨met, owner, field, heq⟩ : Refused record (n.transform keep) := Node.transform_refused h
  exact ⟨owner, field, met, by rw [heq]; exact report_after_record (throw (missing owner field)) met⟩

/-- The listings of a node are those of the tree that its children make. -/
theorem Node.exists_grown {n : Node} (hpresent : n.isPresent)
    (hknown : ∀ k ∈ n.preorder, k.isKnown) :
    ∃ t : Tree, t.root = n ∧ t.Grown ∧ n.preorder = t.preorder ∧ n.postorder = t.postorder := by
  have hself := Node.mem_preorder hpresent
  rw [Node.preorder, Tree.preorderAll_eq_flatMap] at hself
  obtain ⟨t, ht, -⟩ := List.mem_flatMap.mp hself
  obtain ⟨rfl, hown⟩ := n.isOwn_trees t ht
  have hpre : t.root.preorder = t.preorder := by
    rw [Node.preorder, hown.2, Tree.preorderAll, Tree.preorderAll, List.append_nil]
  have hpost : t.root.postorder = t.postorder := by
    rw [Node.postorder, hown.2, Tree.postorderAll, Tree.postorderAll, List.append_nil]
  exact ⟨t, rfl, Tree.grown_of_isOwn t hown (hpre ▸ hknown), hpre, hpost⟩

/-- A visit lists a tree, the one that the children of the node make, in pre-order, and a change that
leaves everything as it is lists the same tree in post-order and gives the node back; so both meet each
node as often as the other. If some list has an element that is not there, then the change is refused,
and the visit is as before. -/
theorem visit_transform_agree (n : Node) (hpresent : n.isPresent)
    (hknown : ∀ k ∈ n.preorder, k.isKnown) :
    (∃ t : Tree, t.root = n ∧ t.Grown ∧ n.preorder = t.preorder ∧ n.postorder = t.postorder) ∧
    n.preorder.Perm n.postorder ∧
    (n.visit descend).report = (.ok (), n.preorder) ∧
    ((∀ k ∈ n.preorder, k.isFilled) →
      (n.transform keep).report = (.ok (some n), n.postorder)) ∧
    ((∃ k ∈ n.preorder, ¬ k.isFilled) →
      ∃ owner field met, (n.transform keep).report = (.error (missing owner field), met)) := by
  refine ⟨Node.exists_grown hpresent hknown, Tree.preorderAll_perm n.trees,
    Node.report_visit hknown, Node.report_transform hpresent, ?_⟩
  rintro ⟨k, hk, hgap⟩
  exact Node.report_refused fun hfilled => hgap (hfilled k hk)

/-- A register with a reset clause, and a message with two arguments. -/
def watchedModule (shown : Expr) : Module where
  name := "m"
  ports := [⟨"clk", .clock, .input⟩]
  statements := [.register "r" (.bundle [⟨"a", .uint 4⟩]) (.ref "clk")
      (some ⟨.ref "rst", .literal 0 (.uint 4)⟩),
    .printf (.ref "clk") (.ref "on") "r" [.ref "r", shown]]

/-- The second argument may be there or not. -/
theorem visit_transform_agree_watched :
    let n := Node.module (watchedModule (.shiftRight (.ref "r") 1 .absent))
    let gap := Node.module (watchedModule .absent)
    (n.transform keep).report = (.ok (some n), n.postorder) ∧
    (n.visit descend).report = (.ok (), n.preorder) ∧ n.preorder.length = 18 ∧
    (gap.visit descend).report = (.ok (), gap.preorder) ∧ gap.preorder.length = 16 ∧
    ∃ owner field met, (gap.transform keep).report = (.error (missing owner field), met) := by
  intro n gap
  obtain ⟨-, -, hvisit, hkept, -⟩ := visit_transform_agree n rfl (by decide +kernel)
  obtain ⟨-, -, hvisit', -, hrefused⟩ := visit_transform_agree gap rfl (by decide +kernel)
  refine ⟨hkept (by decide +kernel), hvisit, rfl, hvisit', rfl, hrefused ?_⟩
  exact ⟨.stmt (.printf (.ref "clk") (.ref "on") "r" [.ref "r", .absent]), by decide +kernel,
    by decide +kernel⟩

end GuardedRtl.Rtl
