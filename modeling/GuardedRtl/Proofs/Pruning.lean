import GuardedRtl.Proofs.Sifting

/-! Dropping nodes by their kinds. The change is refused for the first node, in post-order, that is of
such a kind and is the value of a field that has to be filled. If there is none, what is left is the
tree without those nodes: none of them is in it, and nothing else is gone. -/

namespace GuardedRtl.Rtl

/-- Leaves a node as it is, or drops it if it is of one of the kinds. -/
def dropping (drop : String → Bool) (n : Node) : Except Error (Option Node) :=
  .ok (if drop n.kind then none else some n)

section

variable {drop : String → Bool}

/-! What is left has no node of those kinds -/

/-- No node of the trees is of one of the kinds. -/
def Free (drop : String → Bool) (ts : List Tree) : Prop := Throughout (fun k => ¬ drop k.kind) ts

/-- No occurrence of one of the kinds is one that its holder cannot do without. -/
def Spares (drop : String → Bool) (os : List Occurrence) : Prop :=
  ∀ o ∈ os, o.position.isRequired → ¬ drop o.node.kind

theorem spares_append {os ps : List Occurrence} :
    Spares drop (os ++ ps) ↔ Spares drop os ∧ Spares drop ps := List.forall_mem_append

theorem spares_flatMap {α : Type} {l : α → List Occurrence} {as : List α} :
    Spares drop (as.flatMap l) ↔ ∀ a ∈ as, Spares drop (l a) := by
  simp only [Spares, List.mem_flatMap]
  exact ⟨fun h a ha o ho => h o ⟨a, ha, ho⟩, fun h o ⟨a, ha, ho⟩ => h a ha o ho⟩

theorem Spares.held {position : Position} {n : Node} {held : List Occurrence}
    (hpresent : n.isPresent) (h : Spares drop (listed position n held)) : Spares drop held := by
  rw [listed, if_pos hpresent, spares_append] at h
  exact h.1

theorem Spares.kind {owner field : String} {n : Node} {held : List Occurrence}
    (hpresent : n.isPresent) (h : Spares drop (listed (.required owner field) n held)) :
    ¬ drop n.kind := by
  rw [listed, if_pos hpresent, spares_append] at h
  exact h.2 _ List.mem_cons_self rfl

theorem Node.trees_pruned_of_absent {n : Node} (h : ¬ n.isPresent) : (n.pruned drop).trees = [] := by
  cases n with
  | type t => rw [Ty.eq_absent h]; rfl
  | expr e => rw [Expr.eq_absent h]; rfl
  | stmt s => rw [Stmt.eq_absent h]; rfl
  | _ => exact absurd rfl h

/-- What is left in a place, if the node in it stays. -/
theorem Node.free_listed {position : Position} {n : Node} {held : List Occurrence}
    (hkind : n.isPresent → ¬ drop n.kind)
    (ih : ¬ drop n.kind → Spares drop held → Free drop (n.pruned drop).trees)
    (h : Spares drop (listed position n held)) : Free drop (n.pruned drop).trees := by
  by_cases hp : n.isPresent
  · exact ih (hkind hp) (h.held hp)
  · rw [trees_pruned_of_absent hp]
    exact throughout_nil

theorem Ty.free_required {owner field : String} {t : Ty} {held : List Occurrence}
    (ih : ¬ drop t.kind → Spares drop held → Free drop (t.pruned drop).trees)
    (h : Spares drop (listed (.required owner field) (.type t) held)) :
    Free drop (t.pruned drop).trees :=
  Node.free_listed (n := .type t) (fun hp => h.kind hp) ih h

mutual

theorem Ty.free_pruned (t : Ty) (hkind : ¬ drop t.kind) (h : Spares drop t.held) :
    Free drop (t.pruned drop).trees := by
  cases t with
  | absent => exact throughout_nil
  | vector elem count =>
    exact throughout_singleton.mpr ⟨hkind, Ty.free_required (Ty.free_pruned elem) h⟩
  | bundle fields => exact throughout_singleton.mpr ⟨hkind, Field.free_pruned fields h⟩
  | _ => exact throughout_singleton.mpr ⟨hkind, throughout_nil⟩
termination_by structural t

theorem Field.free_pruned (fields : List Field) (h : Spares drop (Field.occurrences fields)) :
    Free drop (Field.trees (Field.pruned drop fields)) := by
  cases fields with
  | nil => exact throughout_nil
  | cons f fields =>
    obtain ⟨name, type⟩ := f
    obtain ⟨htype, hfields⟩ := spares_append.mp h
    have hrest := Field.free_pruned fields fun o ho => hfields o (List.mem_cons_of_mem _ ho)
    rw [Field.pruned]
    split_ifs with hkind
    · exact hrest
    · have hfield : Free drop [.node (.field ⟨name, type.pruned drop⟩) (type.pruned drop).trees] :=
        throughout_singleton.mpr ⟨hkind, Ty.free_required (Ty.free_pruned type) htype⟩
      exact throughout_append.mpr ⟨hfield, hrest⟩
termination_by structural fields

end

theorem Expr.free_required {owner field : String} {e : Expr} {held : List Occurrence}
    (ih : ¬ drop e.kind → Spares drop held → Free drop (e.pruned drop).trees)
    (h : Spares drop (listed (.required owner field) (.expr e) held)) :
    Free drop (e.pruned drop).trees :=
  Node.free_listed (n := .expr e) (fun hp => h.kind hp) ih h

theorem Expr.free_optional {e : Expr} {held : List Occurrence}
    (ih : ¬ drop e.kind → Spares drop held → Free drop (e.pruned drop).trees)
    (h : Spares drop (listed .optional (.expr e) held)) :
    Free drop (if drop e.kind then Expr.absent else e.pruned drop).trees := by
  split_ifs with hkind
  · exact throughout_nil
  · exact Node.free_listed (n := .expr e) (fun _ => hkind) ih h

theorem Expr.free_pruned (e : Expr) (hkind : ¬ drop e.kind) (h : Spares drop e.held) :
    Free drop (e.pruned drop).trees := by
  induction e with
  | absent => exact throughout_nil
  | ref name | leaf l => exact throughout_singleton.mpr ⟨hkind, throughout_nil⟩
  | literal v type =>
    exact throughout_singleton.mpr ⟨hkind, Ty.free_required type.free_pruned h⟩
  | mux s a b ihs iha ihb =>
    simp only [held, spares_append] at h
    refine throughout_singleton.mpr ⟨hkind, ?_⟩
    simp only [throughout_append]
    exact ⟨⟨free_required ihs h.1.1, free_required iha h.1.2⟩, free_required ihb h.2⟩
  | validIf a b iha ihb | binary op a b iha ihb | compare op a b iha ihb =>
    obtain ⟨ha, hb⟩ := spares_append.mp h
    exact throughout_singleton.mpr
      ⟨hkind, throughout_append.mpr ⟨free_required iha ha, free_required ihb hb⟩⟩
  | shiftLeft a n b iha ihb | shiftRight a n b iha ihb =>
    obtain ⟨ha, hb⟩ := spares_append.mp h
    exact throughout_singleton.mpr
      ⟨hkind, throughout_append.mpr ⟨free_required iha ha, free_optional ihb hb⟩⟩
  | unary op a ih | pad a w ih | bits a hi lo ih | head a n ih | tail a n ih =>
    exact throughout_singleton.mpr ⟨hkind, free_required ih h⟩

theorem Reset.free_pruned {r : Reset} (hkind : ¬ drop "Reset") (h : Spares drop r.held) :
    Free drop [(r.pruned drop).tree] := by
  obtain ⟨henable, hvalue⟩ := spares_append.mp h
  exact throughout_singleton.mpr ⟨hkind, throughout_append.mpr
    ⟨Expr.free_required r.enable.free_pruned henable, Expr.free_required r.value.free_pruned hvalue⟩⟩

/-- The elements of a list that stay have no node of those kinds if each that stays has none. -/
theorem free_kept {α : Type} (node : α → Node) {prune : α → α} {held : α → List Occurrence}
    (hprune : ∀ a, (node a).pruned drop = node (prune a))
    (hfree : ∀ a, ¬ drop (node a).kind → Spares drop (held a) → Free drop (node (prune a)).trees)
    {as : List α} (h : Spares drop (as.flatMap fun a => listed .element (node a) (held a))) :
    Free drop ((kept drop node prune as).flatMap fun a => (node a).trees) := by
  rw [spares_flatMap] at h
  refine throughout_flatMap.mpr fun b hb => ?_
  obtain ⟨a, ha, rfl⟩ := List.mem_map.mp hb
  obtain ⟨ha, hkind⟩ := List.mem_filter.mp ha
  have hfree' := hfree a
  rw [← hprune] at hfree' ⊢
  exact Node.free_listed (fun _ => by simpa using hkind) hfree' (h a ha)

theorem Stmt.free_pruned (s : Stmt) (hkind : ¬ drop s.kind) (h : Spares drop s.held) :
    Free drop (s.pruned drop).trees := by
  cases s with
  | absent => exact throughout_nil
  | foreign kind => exact throughout_singleton.mpr ⟨hkind, throughout_nil⟩
  | connect lhs rhs =>
    obtain ⟨hlhs, hrhs⟩ := List.forall_mem_cons.mp h
    have href : Free drop (Expr.ref lhs).trees := throughout_singleton.mpr ⟨hlhs rfl, throughout_nil⟩
    exact throughout_singleton.mpr
      ⟨hkind, throughout_append.mpr ⟨href, Expr.free_required rhs.free_pruned hrhs⟩⟩
  | register name type clock reset =>
    simp only [held, spares_append] at h
    obtain ⟨⟨htype, hclock⟩, hreset⟩ := h
    refine throughout_singleton.mpr ⟨hkind, ?_⟩
    simp only [throughout_append]
    refine ⟨⟨Ty.free_required type.free_pruned htype, Expr.free_required clock.free_pruned hclock⟩, ?_⟩
    split_ifs with hdrop
    · exact throughout_nil
    · cases reset with
      | none => exact throughout_nil
      | some r =>
        rw [Option.toList_some, List.flatMap_singleton] at hreset
        exact Reset.free_pruned hdrop (Spares.held (n := .reset r) rfl hreset)
  | wire name type => exact throughout_singleton.mpr ⟨hkind, Ty.free_required type.free_pruned h⟩
  | printf clock condition format args =>
    simp only [held, spares_append] at h
    obtain ⟨⟨hclock, hcondition⟩, hargs⟩ := h
    refine throughout_singleton.mpr ⟨hkind, ?_⟩
    simp only [throughout_append]
    refine ⟨⟨Expr.free_required clock.free_pruned hclock,
      Expr.free_required condition.free_pruned hcondition⟩, ?_⟩
    exact free_kept .expr (fun _ => rfl) Expr.free_pruned hargs
  | stop clock condition exitCode =>
    obtain ⟨hclock, hcondition⟩ := spares_append.mp h
    exact throughout_singleton.mpr ⟨hkind, throughout_append.mpr
      ⟨Expr.free_required clock.free_pruned hclock,
        Expr.free_required condition.free_pruned hcondition⟩⟩

theorem Port.free_pruned (p : Port) (hkind : ¬ drop "Port") (h : Spares drop p.held) :
    Free drop [(p.pruned drop).tree] :=
  throughout_singleton.mpr ⟨hkind, Ty.free_required p.type.free_pruned h⟩

theorem Module.free_pruned (m : Module) (hkind : ¬ drop "Module") (h : Spares drop m.held) :
    Free drop [(m.pruned drop).tree] := by
  obtain ⟨hports, hstatements⟩ := spares_append.mp h
  refine throughout_singleton.mpr ⟨hkind, throughout_append.mpr ⟨?_, ?_⟩⟩
  · rw [List.map_eq_flatMap]
    exact free_kept .port (fun _ => rfl) Port.free_pruned hports
  · exact free_kept .stmt (fun _ => rfl) Stmt.free_pruned hstatements

theorem Node.free_pruned (n : Node) (hkind : ¬ drop n.kind) (h : Spares drop n.held) :
    Free drop (n.pruned drop).trees := by
  cases n with
  | type t => exact t.free_pruned hkind h
  | field f => exact throughout_singleton.mpr ⟨hkind, Ty.free_required f.type.free_pruned h⟩
  | expr e => exact e.free_pruned hkind h
  | stmt s => exact s.free_pruned hkind h
  | reset r => exact Reset.free_pruned hkind h
  | port p => exact p.free_pruned hkind h
  | module m => exact m.free_pruned hkind h
  | circuit c =>
    refine throughout_singleton.mpr ⟨hkind, ?_⟩
    rw [List.map_eq_flatMap]
    exact free_kept .module (fun _ => rfl) Module.free_pruned h

/-! When the change is refused -/

theorem meet_eq_ok {o : Occurrence} :
    meet silent drop o = .ok () ↔
      (o.position.isRequired → ¬ drop o.node.kind) := by
  obtain ⟨position, n⟩ := o
  cases hdrop : drop n.kind with
  | false => simp [meet, silent, hdrop, pure, Except.pure, bind, Except.bind]
  | true => cases position <;> simp [meet, silent, hdrop, Position.release, Position.isRequired, pure,
      Except.pure, bind, Except.bind, throw, throwThe, MonadExceptOf.throw]

theorem meet_eq_error {o : Occurrence} {err : Error} :
    meet silent drop o = .error err ↔
      ∃ owner field, o.position = .required owner field ∧ drop o.node.kind ∧
        err = missing owner field := by
  obtain ⟨position, n⟩ := o
  cases hdrop : drop n.kind with
  | false => simp [meet, silent, hdrop, pure, Except.pure, bind, Except.bind]
  | true => cases position <;> simp [meet, silent, hdrop, Position.release, pure, Except.pure, bind,
      Except.bind, throw, throwThe, MonadExceptOf.throw, eq_comm]

theorem sweep_eq_ok {os : List Occurrence} :
    sweep silent drop os = .ok () ↔ Spares drop os := by
  simp only [sweep, forM_eq_ok, meet_eq_ok, Spares]

/-- What ends a sweep is the first occurrence that is dropped and cannot be spared. -/
theorem sweep_eq_error {os : List Occurrence} {err : Error} :
    sweep silent drop os = .error err ↔
      ∃ before owner field k after, os = before ++ ⟨.required owner field, k⟩ :: after ∧
        drop k.kind ∧ Spares drop before ∧ err = missing owner field := by
  simp only [sweep, forM_eq_error, meet_eq_ok, meet_eq_error]
  constructor
  · rintro ⟨before, ⟨position, k⟩, after, rfl, hbefore, owner, field, hposition, hdrop, rfl⟩
    cases hposition
    exact ⟨before, owner, field, k, after, rfl, hdrop, hbefore, rfl⟩
  · rintro ⟨before, owner, field, k, after, rfl, hdrop, hbefore, rfl⟩
    exact ⟨before, ⟨.required owner field, k⟩, after, rfl, hbefore, owner, field, rfl, hdrop, rfl⟩

theorem bind_ok_eq_error {α : Type} {x : Except Error Unit} {a : α} {err : Error} :
    (do x; Except.ok a) = .error err ↔ x = .error err := by
  cases x <;> simp [bind, Except.bind]

theorem transform_dropping_eq {n : Node} (hpresent : n.isPresent)
    (hfilled : ∀ k ∈ n.preorder, k.isFilled) :
    n.transform (dropping drop) =
      (do sweep silent drop n.occurrences
          .ok (if drop n.kind then none else some (n.pruned drop))) := by
  have hroot : meet silent drop ⟨.root, n⟩ = .ok () :=
    meet_eq_ok.mpr fun h => by cases h
  rw [show dropping drop = sift silent drop from rfl, n.transform_sift hpresent hfilled,
    Node.occurrences, sweep_listed hpresent, hroot, bind_assoc]
  refine bind_congr fun _ => ?_
  rw [sift, Node.kind_pruned]
  rfl

end

/-- Dropping the nodes of some kinds fails if and only if one of them is the value of a field that has
to be filled, and then for the first such node in post-order. Otherwise the node itself is dropped, or
it stays without those nodes. -/
theorem transform_dropping (drop : String → Bool) (n : Node) (hpresent : n.isPresent)
    (hfilled : ∀ k ∈ n.preorder, k.isFilled) :
    n.occurrences.map Occurrence.node = n.postorder ∧
    ((∃ err, n.transform (dropping drop) = .error err) ↔
      ∃ o ∈ n.occurrences, o.position.isRequired ∧ drop o.node.kind) ∧
    (∀ err, n.transform (dropping drop) = .error err ↔ ∃ before owner field k after,
      n.occurrences = before ++ ⟨.required owner field, k⟩ :: after ∧ drop k.kind ∧
      (∀ o ∈ before, o.position.isRequired → ¬ drop o.node.kind) ∧ err = missing owner field) ∧
    ((∀ o ∈ n.occurrences, o.position.isRequired → ¬ drop o.node.kind) →
      n.transform (dropping drop) = .ok (if drop n.kind then none else some (n.pruned drop)) ∧
      (¬ drop n.kind → ∀ k ∈ (n.pruned drop).preorder, ¬ drop k.kind)) := by
  rw [transform_dropping_eq hpresent hfilled]
  refine ⟨n.map_occurrences, ?_, fun err => bind_ok_eq_error.trans sweep_eq_error, fun hspares => ?_⟩
  · simp only [bind_ok_eq_error]
    cases hsweep : sweep silent drop n.occurrences with
    | error err =>
      refine iff_of_true ⟨err, rfl⟩ ?_
      obtain ⟨before, owner, field, k, after, heq, hdrop, -⟩ := sweep_eq_error.mp hsweep
      exact ⟨⟨.required owner field, k⟩, by simp [heq], rfl, hdrop⟩
    | ok _ =>
      refine iff_of_false (by simp) ?_
      rintro ⟨o, ho, hrequired, hdrop⟩
      exact sweep_eq_ok.mp hsweep o ho hrequired hdrop
  · rw [sweep_eq_ok.mpr hspares]
    exact ⟨rfl, fun hkind => n.free_pruned hkind (Spares.held hpresent hspares)⟩

/-- A register that is shown and shifted. -/
def shownModule (reset : Option Reset) (shows : List Stmt) : Module where
  name := "m"
  ports := [⟨"clk", .clock, .input⟩]
  statements := .register "r" (.uint 4) (.ref "clk") reset :: shows ++
    [.connect "r" (.shiftLeft (.ref "r") 0 (.ref "n"))]

/-- Without reset clauses and messages the register and the connection are left. Literals cannot be
dropped along with the reset clause: the value that it resets to is one. -/
theorem transform_dropping_shown :
    let reset : Reset := ⟨.ref "rst", .literal 0 (.uint 4)⟩
    let shows : List Stmt := [.printf (.ref "clk") (.ref "on") "r" [.ref "r"]]
    let n := Node.module (shownModule (some reset) shows)
    n.isPresent ∧ (∀ k ∈ n.preorder, k.isFilled) ∧
    n.transform (dropping ["Reset", "PrintF"].contains) =
      .ok (some (.module (shownModule none []))) ∧
    n.transform (dropping ["Reset", "Literal"].contains) = .error (missing "Reset" "Value") := by
  intro reset shows n
  have hfilled : ∀ k ∈ n.preorder, k.isFilled := by decide +kernel
  obtain ⟨-, -, -, hleft⟩ :=
    transform_dropping ["Reset", "PrintF"].contains n rfl hfilled
  obtain ⟨-, -, hrefused, -⟩ :=
    transform_dropping ["Reset", "Literal"].contains n rfl hfilled
  refine ⟨rfl, hfilled, (hleft (by decide +kernel)).1, (hrefused _).mpr ?_⟩
  exact ⟨n.occurrences.take 6, "Reset", "Value", .expr reset.value, n.occurrences.drop 7, rfl,
    by decide +kernel, by decide +kernel, rfl⟩

end GuardedRtl.Rtl
