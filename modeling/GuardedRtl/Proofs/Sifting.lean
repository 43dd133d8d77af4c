import GuardedRtl.Proofs.Occurrences
import GuardedRtl.Rtl.Transform

/-! Changes that only drop. A change that leaves a node as it is or drops it, by its kind alone, meets
the occurrences in a tree one after the other, in post-order, and is nothing but that
(`Node.transform_sift`): a node that is dropped although its holder cannot do without it ends the
change, and otherwise the tree is left without what was dropped. -/

namespace GuardedRtl.Rtl

/-! What is left -/

/-- The elements of a list that stay, each without the parts that do not. -/
def kept {α : Type} (drop : String → Bool) (node : α → Node) (prune : α → α) (as : List α) : List α :=
  (as.filter fun a => !drop (node a).kind).map prune

mutual

def Ty.pruned (drop : String → Bool) : Ty → Ty
  | .vector elem count => .vector (elem.pruned drop) count
  | .bundle fields => .bundle (Field.pruned drop fields)
  | t => t

def Field.pruned (drop : String → Bool) : List Field → List Field
  | [] => []
  | ⟨name, type⟩ :: fields =>
    if drop "Field" then Field.pruned drop fields
    else ⟨name, type.pruned drop⟩ :: Field.pruned drop fields

end

def Expr.pruned (drop : String → Bool) : Expr → Expr
  | .literal value type => .literal value (type.pruned drop)
  | .mux sel a b => .mux (sel.pruned drop) (a.pruned drop) (b.pruned drop)
  | .validIf valid a => .validIf (valid.pruned drop) (a.pruned drop)
  | .binary op a b => .binary op (a.pruned drop) (b.pruned drop)
  | .compare op a b => .compare op (a.pruned drop) (b.pruned drop)
  | .unary op e => .unary op (e.pruned drop)
  | .pad e width => .pad (e.pruned drop) width
  | .shiftLeft e places amount =>
    .shiftLeft (e.pruned drop) places (if drop amount.kind then .absent else amount.pruned drop)
  | .shiftRight e places amount =>
    .shiftRight (e.pruned drop) places (if drop amount.kind then .absent else amount.pruned drop)
  | .bits e hi lo => .bits (e.pruned drop) hi lo
  | .head e count => .head (e.pruned drop) count
  | .tail e count => .tail (e.pruned drop) count
  | .absent => .absent
  | .ref name => .ref name
  | .leaf l => .leaf l

def Reset.pruned (drop : String → Bool) (r : Reset) : Reset :=
  ⟨r.enable.pruned drop, r.value.pruned drop⟩

def Stmt.pruned (drop : String → Bool) : Stmt → Stmt
  | .connect lhs rhs => .connect lhs (rhs.pruned drop)
  | .register name type clock reset =>
    .register name (type.pruned drop) (clock.pruned drop)
      (if drop "Reset" then none else reset.map (Reset.pruned drop))
  | .wire name type => .wire name (type.pruned drop)
  | .printf clock condition format args =>
    .printf (clock.pruned drop) (condition.pruned drop) format
      (kept drop .expr (Expr.pruned drop) args)
  | .stop clock condition exitCode => .stop (clock.pruned drop) (condition.pruned drop) exitCode
  | .absent => .absent
  | .foreign kind => .foreign kind

def Port.pruned (drop : String → Bool) (p : Port) : Port := { p with type := p.type.pruned drop }

def Module.pruned (drop : String → Bool) (m : Module) : Module :=
  { m with
    ports := kept drop .port (Port.pruned drop) m.ports
    statements := kept drop .stmt (Stmt.pruned drop) m.statements }

def Circuit.pruned (drop : String → Bool) (c : Circuit) : Circuit :=
  { c with modules := kept drop .module (Module.pruned drop) c.modules }

/-- The node without the nodes of some kinds that may go: optional ones, and elements of lists. -/
def Node.pruned (drop : String → Bool) : Node → Node
  | .type t => .type (t.pruned drop)
  | .field f => .field { f with type := f.type.pruned drop }
  | .expr e => .expr (e.pruned drop)
  | .stmt s => .stmt (s.pruned drop)
  | .reset r => .reset (r.pruned drop)
  | .port p => .port (p.pruned drop)
  | .module m => .module (m.pruned drop)
  | .circuit c => .circuit (c.pruned drop)

theorem Node.kind_pruned (drop : String → Bool) (n : Node) : (n.pruned drop).kind = n.kind := by
  cases n with
  | type t => cases t <;> rfl
  | expr e => cases e <;> rfl
  | stmt s => cases s <;> rfl
  | _ => rfl

/-! One node after the other -/

/-- Work that ends where it fails. -/
class StopsAtThrow (m : Type → Type) [Monad m] [MonadExceptOf Error m] : Prop where
  throw_bind {α β : Type} (e : Error) (next : α → m β) : (throw e >>= next) = throw e

instance : StopsAtThrow (Except Error) := ⟨fun _ _ => rfl⟩

/-- Takes no note of a node. -/
def silent (_ : Node) : Except Error Unit := .ok ()

section

variable {m : Type → Type} [Monad m] [MonadExceptOf Error m]

/-- Meets a node, and drops it if it is of one of the kinds. -/
def sift (note : Node → m Unit) (drop : String → Bool) (n : Node) : m (Option Node) := do
  note n
  pure (if drop n.kind then none else some n)

/-- What is done about a node that is dropped. -/
def Position.release : Position → m Unit
  | .required owner field => throw (missing owner field)
  | _ => pure ()

/-- What is done about an occurrence: it is met, as it is left, and may be dropped. -/
def meet (note : Node → m Unit) (drop : String → Bool) (o : Occurrence) : m Unit := do
  note (o.node.pruned drop)
  if drop o.node.kind then o.position.release

/-- What is done about occurrences, one after the other. -/
def sweep (note : Node → m Unit) (drop : String → Bool) (os : List Occurrence) : m Unit :=
  forM os (meet note drop)

variable [LawfulMonad m] {note : Node → m Unit} {drop : String → Bool}

theorem sweep_nil_bind {α : Type} (next : Unit → m α) : (sweep note drop [] >>= next) = next () :=
  pure_bind () next

theorem sweep_append (os ps : List Occurrence) :
    sweep note drop (os ++ ps) = (do sweep note drop os; sweep note drop ps) :=
  List.forM_append

omit [LawfulMonad m] in
theorem sweep_cons (o : Occurrence) (os : List Occurrence) :
    sweep note drop (o :: os) = (do meet note drop o; sweep note drop os) :=
  List.forM_cons

theorem sweep_listed {position : Position} {n : Node} {held : List Occurrence}
    (hpresent : n.isPresent) :
    sweep note drop (listed position n held) =
      (do sweep note drop held; meet note drop ⟨position, n⟩) := by
  rw [listed, if_pos hpresent, sweep_append]
  congr 1
  funext _
  simp [sweep]

theorem listed_of_absent {position : Position} {n : Node} {held : List Occurrence}
    (h : ¬ n.isPresent) : listed position n held = [] := if_neg h

theorem sift_optional {α : Type} {owner field : String} {cast : Node → Option α} {n : Node}
    {a empty : α} (hcast : cast (n.pruned drop) = some a) :
    (sift note drop (n.pruned drop) >>= optional owner field cast empty) =
      (do meet note drop ⟨.optional, n⟩; pure (if drop n.kind then empty else a)) := by
  simp only [sift, meet, Node.kind_pruned, bind_assoc, pure_bind]
  cases drop n.kind with
  | true => simp [optional, Position.release]
  | false => simp [optional, required, hcast]

/-- A list whose places are all filled in. -/
theorem refillList_sift {α : Type} (node : α → Node) (prune : α → α) (held : α → List Occurrence)
    {owner field : String} {isPresent : α → Bool} {cast : Node → Option α}
    {change : α → m (Option Node)} (hcast : ∀ a, cast (node a) = some a)
    (hprune : ∀ a, (node a).pruned drop = node (prune a))
    (hpresent : ∀ a, (node a).isPresent = isPresent a) {as : List α}
    (h : ∀ a ∈ as, isPresent a ∧ change a =
      (do sweep note drop (held a); sift note drop (node (prune a)))) :
    refillList owner field isPresent cast change as =
      (do sweep note drop (as.flatMap fun a => listed .element (node a) (held a))
          pure (kept drop node prune as)) := by
  induction as with
  | nil => exact (sweep_nil_bind fun _ => pure []).symm
  | cons a as ih =>
    obtain ⟨⟨hp, ha⟩, has⟩ := List.forall_mem_cons.mp h
    rw [refillList, if_pos hp, ha, ih has, List.flatMap_cons, sweep_append,
      sweep_listed ((hpresent a).trans hp), ← hprune]
    simp only [sift, meet, Node.kind_pruned, bind_assoc, pure_bind]
    cases hdrop : drop (node a).kind with
    | true => simp [Position.release, kept, hdrop]
    | false => simp [required, hprune, hcast, kept, hdrop]

variable [StopsAtThrow m]

theorem sift_required {α : Type} {owner field : String} {cast : Node → Option α} {n : Node} {a : α}
    (hcast : cast (n.pruned drop) = some a) :
    (sift note drop (n.pruned drop) >>= required owner field cast) =
      (do meet note drop ⟨.required owner field, n⟩; pure a) := by
  simp only [sift, meet, Node.kind_pruned, bind_assoc, pure_bind]
  cases drop n.kind with
  | true => simp only [required, Position.release, if_true, StopsAtThrow.throw_bind]
  | false => simp [required, hcast]

theorem Ty.refill_sift {owner field : String} {t : Ty} {held : List Occurrence}
    {changed : m (Option Node)} (h : t.isPresent → changed =
      (do sweep note drop held; sift note drop (.type (t.pruned drop)))) :
    t.refill owner field changed =
      (do sweep note drop (listed (.required owner field) (.type t) held)
          pure (t.pruned drop)) := by
  by_cases hp : t.isPresent
  · rw [refill, if_pos hp, h hp, sweep_listed (n := .type t) hp, bind_assoc, bind_assoc]
    exact bind_congr fun _ => sift_required (n := .type t) rfl
  · rw [listed_of_absent (n := .type t) hp, sweep_nil_bind, refill, if_neg hp, eq_absent hp]
    rfl

theorem Expr.refill_sift {owner field : String} {e : Expr} {held : List Occurrence}
    {changed : m (Option Node)} (h : e.isPresent → changed =
      (do sweep note drop held; sift note drop (.expr (e.pruned drop)))) :
    e.refill owner field changed =
      (do sweep note drop (listed (.required owner field) (.expr e) held)
          pure (e.pruned drop)) := by
  by_cases hp : e.isPresent
  · rw [refill, if_pos hp, h hp, sweep_listed (n := .expr e) hp, bind_assoc, bind_assoc]
    exact bind_congr fun _ => sift_required (n := .expr e) rfl
  · rw [listed_of_absent (n := .expr e) hp, sweep_nil_bind, refill, if_neg hp, eq_absent hp]
    rfl

omit [StopsAtThrow m] in
theorem Expr.refillOptional_sift {owner field : String} {e : Expr} {held : List Occurrence}
    {changed : m (Option Node)} (h : e.isPresent → changed =
      (do sweep note drop held; sift note drop (.expr (e.pruned drop)))) :
    e.refillOptional owner field changed =
      (do sweep note drop (listed .optional (.expr e) held)
          pure (if drop e.kind then .absent else e.pruned drop)) := by
  by_cases hp : e.isPresent
  · rw [refillOptional, if_pos hp, h hp, sweep_listed (n := .expr e) hp, bind_assoc, bind_assoc]
    exact bind_congr fun _ => sift_optional (n := .expr e) rfl
  · rw [listed_of_absent (n := .expr e) hp, sweep_nil_bind, refillOptional, if_neg hp, eq_absent hp]
    simp [pruned]

mutual

theorem Ty.transform_sift {f : Node → m (Option Node)}
    (htype : ∀ t, f (.type t) = sift note drop (.type t))
    (hfield : ∀ p, f (.field p) = sift note drop (.field p)) (t : Ty) (hpresent : t.isPresent) :
    t.transform f = (do sweep note drop t.held; sift note drop (.type (t.pruned drop))) := by
  cases t with
  | absent => cases hpresent
  | vector elem count =>
    rw [Ty.transform, Ty.refill_sift (Ty.transform_sift htype hfield elem)]
    simp only [bind_assoc, pure_bind, htype]
    rfl
  | bundle fields =>
    rw [Ty.transform, Field.transformAll_sift htype hfield fields]
    simp only [bind_assoc, pure_bind, htype]
    rfl
  | _ => exact (htype _).trans (sweep_nil_bind fun _ => sift note drop (.type _)).symm
termination_by structural t

theorem Field.transformAll_sift {f : Node → m (Option Node)}
    (htype : ∀ t, f (.type t) = sift note drop (.type t))
    (hfield : ∀ p, f (.field p) = sift note drop (.field p)) (fields : List Field) :
    Field.transformAll f fields =
      (do sweep note drop (Field.occurrences fields); pure (Field.pruned drop fields)) := by
  cases fields with
  | nil => exact (sweep_nil_bind fun _ => pure []).symm
  | cons p fields =>
    obtain ⟨name, type⟩ := p
    rw [Field.transformAll, Ty.refill_sift (Ty.transform_sift htype hfield type),
      Field.transformAll_sift htype hfield fields, Field.occurrences, sweep_append, sweep_cons,
      Field.pruned]
    simp only [hfield, sift, meet, bind_assoc, pure_bind]
    cases hdrop : drop "Field" with
    | true => simp [Node.pruned, Node.kind, Position.release, hdrop]
    | false => simp [Node.pruned, Node.kind, Node.field?, required, hdrop]
termination_by structural fields

end

theorem Ty.refill_transform (owner field : String) (t : Ty) :
    t.refill owner field (t.transform (sift note drop)) =
      (do sweep note drop (listed (.required owner field) (.type t) t.held)
          pure (t.pruned drop)) :=
  Ty.refill_sift (Ty.transform_sift (fun _ => rfl) (fun _ => rfl) t)

theorem Expr.transform_sift (e : Expr) (hpresent : e.isPresent) :
    e.transform (sift note drop) =
      (do sweep note drop e.held; sift note drop (.expr (e.pruned drop))) := by
  induction e with
  | absent => cases hpresent
  | ref name | leaf l => exact (sweep_nil_bind fun _ => sift note drop (.expr _)).symm
  | literal value type =>
    simp only [transform, Ty.refill_transform, bind_assoc, pure_bind]
    rfl
  | mux s a b ihs iha ihb =>
    simp only [transform, refill_sift ihs, refill_sift iha, refill_sift ihb, held, pruned,
      sweep_append, bind_assoc, pure_bind]
  | validIf a b iha ihb | binary op a b iha ihb | compare op a b iha ihb =>
    simp only [transform, refill_sift iha, refill_sift ihb, held, pruned, sweep_append, bind_assoc,
      pure_bind]
  | shiftLeft a n b iha ihb | shiftRight a n b iha ihb =>
    simp only [transform, refill_sift iha, refillOptional_sift ihb, held, pruned, sweep_append,
      bind_assoc, pure_bind]
  | unary op a ih | pad a w ih | bits a hi lo ih | head a n ih | tail a n ih =>
    simp only [transform, refill_sift ih, held, pruned, bind_assoc, pure_bind]

theorem Expr.refill_transform (owner field : String) (e : Expr) :
    e.refill owner field (e.transform (sift note drop)) =
      (do sweep note drop (listed (.required owner field) (.expr e) e.held)
          pure (e.pruned drop)) :=
  Expr.refill_sift e.transform_sift

theorem Reset.transform_sift (r : Reset) : r.transform (sift note drop) =
    (do sweep note drop r.held; sift note drop (.reset (r.pruned drop))) := by
  simp only [transform, Expr.refill_transform, held, pruned, sweep_append, bind_assoc, pure_bind]

theorem Reset.transformClause_sift (reset : Option Reset) :
    Reset.transformClause (sift note drop) reset =
      (do sweep note drop (reset.toList.flatMap fun r => listed .optional (.reset r) r.held)
          pure (if drop "Reset" then none else reset.map (Reset.pruned drop))) := by
  cases reset with
  | none =>
    simp only [transformClause, Option.toList_none, List.flatMap_nil, sweep_nil_bind, Option.map_none,
      ite_self]
  | some r =>
    rw [transformClause, r.transform_sift, Option.toList_some, List.flatMap_singleton,
      sweep_listed (n := .reset r) rfl, bind_assoc, bind_assoc]
    exact bind_congr fun _ => sift_optional (n := .reset r) rfl

/-- Every element of the lists of a node is there. -/
def Node.isFilled : Node → Bool
  | .stmt (.printf _ _ _ args) => args.all Expr.isPresent
  | .module m => m.statements.all Stmt.isPresent
  | _ => true

theorem Node.mem_preorder {n : Node} (h : n.isPresent) : n ∈ n.preorder := by
  cases n with
  | type t =>
    cases t with
    | absent => cases h
    | _ => exact List.mem_cons_self
  | expr e =>
    cases e with
    | absent => cases h
    | _ => exact List.mem_cons_self
  | stmt s =>
    cases s with
    | absent => cases h
    | _ => exact List.mem_cons_self
  | _ => exact List.mem_cons_self

theorem Module.statements_filled {mod : Module}
    (hfilled : ∀ k ∈ (Node.module mod).preorder, k.isFilled) :
    ∀ s ∈ mod.statements, s.isPresent ∧ (Node.stmt s).isFilled := by
  intro s hs
  have hp : s.isPresent := by
    have hself := hfilled _ (Node.mem_preorder (n := .module mod) rfl)
    exact List.all_eq_true.mp hself s hs
  refine ⟨hp, hfilled _ ?_⟩
  rw [Node.preorder, Node.trees, Module.tree, Tree.preorderAll_singleton, Tree.preorderAll_append,
    Tree.preorderAll_flatMap]
  have hmem : Node.stmt s ∈ Tree.preorderAll s.trees := Node.mem_preorder (n := .stmt s) hp
  exact List.mem_cons_of_mem _ (List.mem_append_right _ (List.mem_flatMap.mpr ⟨s, hs, hmem⟩))

theorem Circuit.mem_preorder {c : Circuit} {mod : Module} (hmod : mod ∈ c.modules) {k : Node}
    (hk : k ∈ (Node.module mod).preorder) : k ∈ (Node.circuit c).preorder := by
  rw [Node.preorder, Node.trees, Circuit.tree, Tree.preorderAll_singleton, List.map_eq_flatMap,
    Tree.preorderAll_flatMap]
  exact List.mem_cons_of_mem _ (List.mem_flatMap.mpr ⟨mod, hmod, hk⟩)

theorem Stmt.transform_sift (s : Stmt) (hpresent : s.isPresent) (hfilled : (Node.stmt s).isFilled) :
    s.transform (sift note drop) =
      (do sweep note drop s.held; sift note drop (.stmt (s.pruned drop))) := by
  cases s with
  | absent => cases hpresent
  | foreign kind => exact (sweep_nil_bind fun _ => sift note drop (.stmt _)).symm
  | connect lhs rhs =>
    have hlhs : (sift note drop (.expr (.ref lhs)) >>= required "Connect" "Lhs" Node.ref?) =
        (do meet note drop ⟨.required "Connect" "Lhs", .expr (.ref lhs)⟩; pure lhs) :=
      sift_required (n := .expr (.ref lhs)) rfl
    rw [transform, ← bind_assoc, hlhs]
    simp only [Expr.refill_transform, held, pruned, sweep_cons, bind_assoc, pure_bind]
  | register name type clock reset =>
    simp only [transform, Ty.refill_transform, Expr.refill_transform, Reset.transformClause_sift, held,
      pruned, sweep_append, bind_assoc, pure_bind]
  | wire name type =>
    simp only [transform, Ty.refill_transform, held, pruned, bind_assoc, pure_bind]
  | printf clock condition format args =>
    have hargs : refillList "PrintF" "Args" Expr.isPresent Node.expr?
        (Expr.transform (sift note drop)) args =
          (do sweep note drop (args.flatMap fun a => listed .element (.expr a) a.held)
              pure (kept drop .expr (Expr.pruned drop) args)) := by
      refine refillList_sift .expr (Expr.pruned drop) Expr.held (fun _ => rfl) (fun _ => rfl)
        (fun _ => rfl) fun a ha => ?_
      have hp := List.all_eq_true.mp hfilled a ha
      exact ⟨hp, a.transform_sift hp⟩
    simp only [transform, Expr.refill_transform, hargs, held, pruned, sweep_append, bind_assoc,
      pure_bind]
  | stop clock condition exitCode =>
    simp only [transform, Expr.refill_transform, held, pruned, sweep_append, bind_assoc, pure_bind]

theorem Port.transform_sift (p : Port) : p.transform (sift note drop) =
    (do sweep note drop p.held; sift note drop (.port (p.pruned drop))) := by
  simp only [transform, Ty.refill_transform, held, pruned, bind_assoc, pure_bind]

theorem refillPorts_sift (ports : List Port) :
    refillList "Module" "Ports" (fun _ => true) Node.port? (Port.transform (sift note drop)) ports =
      (do sweep note drop (ports.flatMap fun p => listed .element (.port p) p.held)
          pure (kept drop .port (Port.pruned drop) ports)) :=
  refillList_sift .port (Port.pruned drop) Port.held (fun _ => rfl) (fun _ => rfl) (fun _ => rfl)
    fun p _ => ⟨rfl, p.transform_sift⟩

theorem Module.transform_sift (mod : Module)
    (hfilled : ∀ s ∈ mod.statements, s.isPresent ∧ (Node.stmt s).isFilled) :
    mod.transform (sift note drop) =
      (do sweep note drop mod.held; sift note drop (.module (mod.pruned drop))) := by
  have hstatements : refillList "Module" "Statements" Stmt.isPresent Node.stmt?
      (Stmt.transform (sift note drop)) mod.statements =
        (do sweep note drop (mod.statements.flatMap fun s => listed .element (.stmt s) s.held)
            pure (kept drop .stmt (Stmt.pruned drop) mod.statements)) :=
    refillList_sift .stmt (Stmt.pruned drop) Stmt.held (fun _ => rfl) (fun _ => rfl) (fun _ => rfl)
      fun s hs => ⟨(hfilled s hs).1, s.transform_sift (hfilled s hs).1 (hfilled s hs).2⟩
  simp only [transform, refillPorts_sift, hstatements, held, pruned, sweep_append, bind_assoc,
    pure_bind]

theorem Circuit.transform_sift (c : Circuit)
    (hfilled : ∀ mod ∈ c.modules, ∀ s ∈ mod.statements, s.isPresent ∧ (Node.stmt s).isFilled) :
    c.transform (sift note drop) =
      (do sweep note drop c.held; sift note drop (.circuit (c.pruned drop))) := by
  have hmodules : refillList "Circuit" "Modules" (fun _ => true) Node.module?
      (Module.transform (sift note drop)) c.modules =
        (do sweep note drop (c.modules.flatMap fun mod => listed .element (.module mod) mod.held)
            pure (kept drop .module (Module.pruned drop) c.modules)) :=
    refillList_sift .module (Module.pruned drop) Module.held (fun _ => rfl) (fun _ => rfl)
      (fun _ => rfl) fun mod hmod => ⟨rfl, mod.transform_sift (hfilled mod hmod)⟩
  simp only [transform, hmodules, held, pruned, bind_assoc, pure_bind]

/-- A change that drops nodes of some kinds meets what the node holds, in post-order, and then the node
itself, without what was dropped. -/
theorem Node.transform_sift (n : Node) (hpresent : n.isPresent)
    (hfilled : ∀ k ∈ n.preorder, k.isFilled) :
    n.transform (sift note drop) =
      (do sweep note drop n.held; sift note drop (n.pruned drop)) := by
  cases n with
  | type t => exact Ty.transform_sift (fun _ => rfl) (fun _ => rfl) t hpresent
  | field p =>
    simp only [transform, Ty.refill_transform, held, pruned, bind_assoc, pure_bind]
  | expr e => exact e.transform_sift hpresent
  | stmt s => exact s.transform_sift hpresent (hfilled _ (mem_preorder hpresent))
  | reset r => exact r.transform_sift
  | port p => exact p.transform_sift
  | module mod => exact mod.transform_sift (Module.statements_filled hfilled)
  | circuit c =>
    refine c.transform_sift fun mod hmod => Module.statements_filled fun k hk => hfilled k ?_
    exact Circuit.mem_preorder hmod hk

end

/-! Dropping nothing -/

def never : String → Bool := fun _ => false

theorem kept_never {α : Type} {node : α → Node} {prune : α → α} (h : ∀ a, prune a = a)
    (as : List α) : kept never node prune as = as := by
  simp [kept, never, funext h]

mutual

theorem Ty.pruned_never (t : Ty) : t.pruned never = t := by
  cases t with
  | vector elem count => rw [Ty.pruned, Ty.pruned_never elem]
  | bundle fields => rw [Ty.pruned, Field.pruned_never fields]
  | _ => rfl
termination_by structural t

theorem Field.pruned_never (fields : List Field) : Field.pruned never fields = fields := by
  cases fields with
  | nil => rfl
  | cons f fields =>
    obtain ⟨name, type⟩ := f
    rw [Field.pruned, if_neg (by simp [never]), Ty.pruned_never type, Field.pruned_never fields]
termination_by structural fields

end

theorem Expr.pruned_never (e : Expr) : e.pruned never = e := by
  induction e with
  | literal v type => rw [pruned, type.pruned_never]
  | _ => simp_all [pruned, never]

theorem Reset.pruned_never (r : Reset) : r.pruned never = r := by
  simp only [pruned, Expr.pruned_never]

theorem Stmt.pruned_never (s : Stmt) : s.pruned never = s := by
  cases s with
  | register name type clock reset =>
    have hreset : reset.map (Reset.pruned never) = reset := by
      simp [funext Reset.pruned_never]
    rw [pruned, type.pruned_never, clock.pruned_never, hreset]
    rfl
  | printf clock condition format args =>
    rw [pruned, clock.pruned_never, condition.pruned_never, kept_never Expr.pruned_never]
  | _ => simp [pruned, Ty.pruned_never, Expr.pruned_never]

theorem Port.pruned_never (p : Port) : p.pruned never = p := by
  simp only [pruned, Ty.pruned_never]

theorem Module.pruned_never (m : Module) : m.pruned never = m := by
  simp only [pruned, kept_never Port.pruned_never, kept_never Stmt.pruned_never]

theorem Node.pruned_never (n : Node) : n.pruned never = n := by
  cases n with
  | field f =>
    obtain ⟨name, type⟩ := f
    exact congrArg (fun t => Node.field ⟨name, t⟩) type.pruned_never
  | circuit c => simp only [pruned, Circuit.pruned, kept_never Module.pruned_never]
  | _ => simp only [pruned, Ty.pruned_never, Expr.pruned_never, Stmt.pruned_never,
      Reset.pruned_never, Port.pruned_never, Module.pruned_never]

section

variable {m : Type → Type} [Monad m] [LawfulMonad m] [MonadExceptOf Error m] {note : Node → m Unit}

theorem sweep_never (os : List Occurrence) :
    sweep note never os = forM (os.map Occurrence.node) note := by
  have hmeet : meet note never = fun o => note o.node := by
    funext o
    simp [meet, never, Node.pruned_never]
  rw [sweep, hmeet, List.forM_map]

theorem sweep_sift_never (held : List Occurrence) (n : Node) :
    (do sweep note never held; sift note never (n.pruned never)) =
      (do forM (held.map Occurrence.node ++ [n]) note; pure (some n)) := by
  rw [sweep_never, Node.pruned_never, List.forM_append, bind_assoc]
  refine bind_congr fun _ => ?_
  simp [sift, never]

end

end GuardedRtl.Rtl
