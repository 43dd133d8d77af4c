import GuardedRtl.Proofs.Check
import Mathlib.Tactic

/-! The nodes of a tree, listed. A visit that goes on everywhere calls its function on the nodes in
pre-order, so what it does is what that function does along a list (`visitAll_eq_forM`), and what it
fails for is the first node on that list for which the function fails (`forM_eq_error`). -/

namespace GuardedRtl.Rtl

mutual

/-- The nodes of a tree, each before those below it. -/
def Tree.preorder : Tree → List Node
  | .node n cs => n :: Tree.preorderAll cs

def Tree.preorderAll : List Tree → List Node
  | [] => []
  | t :: ts => t.preorder ++ Tree.preorderAll ts

end

mutual

/-- The nodes of a tree, each after those below it. -/
def Tree.postorder : Tree → List Node
  | .node n cs => Tree.postorderAll cs ++ [n]

def Tree.postorderAll : List Tree → List Node
  | [] => []
  | t :: ts => t.postorder ++ Tree.postorderAll ts

end

/-- All nodes that occur in a node, itself first. -/
def Node.preorder (n : Node) : List Node := Tree.preorderAll n.trees

/-- The same nodes, itself last. -/
def Node.postorder (n : Node) : List Node := Tree.postorderAll n.trees

namespace Tree

theorem preorderAll_eq_flatMap (ts : List Tree) : preorderAll ts = ts.flatMap preorder := by
  induction ts with
  | nil => rfl
  | cons t ts ih => rw [preorderAll, ih, List.flatMap_cons]

theorem postorderAll_eq_flatMap (ts : List Tree) : postorderAll ts = ts.flatMap postorder := by
  induction ts with
  | nil => rfl
  | cons t ts ih => rw [postorderAll, ih, List.flatMap_cons]

theorem preorderAll_append (ts us : List Tree) :
    preorderAll (ts ++ us) = preorderAll ts ++ preorderAll us := by
  simp only [preorderAll_eq_flatMap, List.flatMap_append]

theorem postorderAll_append (ts us : List Tree) :
    postorderAll (ts ++ us) = postorderAll ts ++ postorderAll us := by
  simp only [postorderAll_eq_flatMap, List.flatMap_append]

theorem preorderAll_flatMap {α : Type} (g : α → List Tree) (as : List α) :
    preorderAll (as.flatMap g) = as.flatMap fun a => preorderAll (g a) := by
  simp only [preorderAll_eq_flatMap, List.flatMap_assoc]

theorem postorderAll_flatMap {α : Type} (g : α → List Tree) (as : List α) :
    postorderAll (as.flatMap g) = as.flatMap fun a => postorderAll (g a) := by
  simp only [postorderAll_eq_flatMap, List.flatMap_assoc]

theorem preorderAll_singleton (n : Node) (cs : List Tree) :
    preorderAll [.node n cs] = n :: preorderAll cs := by
  simp [preorderAll, preorder]

theorem postorderAll_singleton (n : Node) (cs : List Tree) :
    postorderAll [.node n cs] = postorderAll cs ++ [n] := by
  simp [postorderAll, postorder]

mutual

/-- Both listings have the same nodes, each as often. -/
theorem preorder_perm (t : Tree) : t.preorder.Perm t.postorder := by
  cases t with
  | node n cs =>
    rw [preorder, postorder]
    exact ((preorderAll_perm cs).cons n).trans (List.perm_append_singleton n _).symm
termination_by structural t

theorem preorderAll_perm (ts : List Tree) : (preorderAll ts).Perm (postorderAll ts) := by
  cases ts with
  | nil => exact .nil
  | cons t ts => exact (preorder_perm t).append (preorderAll_perm ts)
termination_by structural ts

end

end Tree

/-! What holds of all nodes -/

/-- `P` holds of every node of the trees. -/
def Throughout (P : Node → Prop) (ts : List Tree) : Prop := ∀ k ∈ Tree.preorderAll ts, P k

section

variable {P : Node → Prop}

theorem throughout_nil : Throughout P [] := fun _ h => absurd h List.not_mem_nil

theorem throughout_append {ts us : List Tree} :
    Throughout P (ts ++ us) ↔ Throughout P ts ∧ Throughout P us := by
  simp only [Throughout, Tree.preorderAll_append, List.forall_mem_append]

theorem throughout_singleton {n : Node} {cs : List Tree} :
    Throughout P [.node n cs] ↔ P n ∧ Throughout P cs := by
  simp only [Throughout, Tree.preorderAll_singleton, List.forall_mem_cons]

theorem throughout_flatMap {α : Type} {g : α → List Tree} {as : List α} :
    Throughout P (as.flatMap g) ↔ ∀ a ∈ as, Throughout P (g a) := by
  simp only [Throughout, Tree.preorderAll_flatMap, List.mem_flatMap]
  exact ⟨fun h a ha k hk => h k ⟨a, ha, hk⟩, fun h k ⟨a, ha, hk⟩ => h a ha k hk⟩

end

/-! Visits along the listing -/

section

variable {m : Type → Type} [Monad m] [LawfulMonad m] [MonadExceptOf Error m]
  {f : Node → m Bool} {g : Node → m Unit}

mutual

theorem Tree.visit_eq_forM (hf : ∀ n, f n = (do g n; pure true)) (t : Tree)
    (hg : ∀ n ∈ t.preorder, ¬ n.isKnown → ∀ k : Unit → m Unit, (g n >>= k) = g n) :
    t.visit f = forM t.preorder g := by
  cases t with
  | node n cs =>
    rw [Tree.preorder] at hg
    rw [Tree.visit, Tree.preorder, List.forM_cons, hf, bind_assoc]
    cases hknown : n.isKnown with
    | true =>
      have hcs := Tree.visitAll_eq_forM hf cs fun k hk => hg k (List.mem_cons_of_mem _ hk)
      simp [hcs]
    | false =>
      -- The function has failed already, so nothing that would come next matters.
      have hstop := hg n List.mem_cons_self (by simp [hknown])
      rw [hstop, hstop]
termination_by structural t

/-- A visit that goes on wherever it can is its function along the listing, if that function fails
where the visit cannot go on. -/
theorem Tree.visitAll_eq_forM (hf : ∀ n, f n = (do g n; pure true)) (ts : List Tree)
    (hg : ∀ n ∈ Tree.preorderAll ts, ¬ n.isKnown → ∀ k : Unit → m Unit, (g n >>= k) = g n) :
    Tree.visitAll f ts = forM (Tree.preorderAll ts) g := by
  cases ts with
  | nil => rfl
  | cons t ts =>
    rw [Tree.preorderAll] at hg
    rw [Tree.visitAll, Tree.preorderAll, List.forM_append,
      Tree.visit_eq_forM hf t fun n hn => hg n (List.mem_append_left _ hn),
      Tree.visitAll_eq_forM hf ts fun n hn => hg n (List.mem_append_right _ hn)]
termination_by structural ts

end

end

/-! Work along a list that may fail -/

section

variable {α : Type} {g : α → Except Error Unit} {xs : List α}

theorem forM_eq_ok : forM xs g = .ok () ↔ ∀ x ∈ xs, g x = .ok () := by
  induction xs with
  | nil => exact ⟨fun _ x hx => absurd hx List.not_mem_nil, fun _ => rfl⟩
  | cons x xs ih =>
    rw [List.forM_cons, bind_eq_ok, List.forall_mem_cons, ih]
    exact ⟨fun ⟨_, h⟩ => h, fun h => ⟨(), h⟩⟩

/-- What fails is the first element on which the work fails. -/
theorem forM_eq_error {err : Error} :
    forM xs g = .error err ↔ ∃ before x after, xs = before ++ x :: after ∧
      (∀ y ∈ before, g y = .ok ()) ∧ g x = .error err := by
  induction xs with
  | nil => simp [pure, Except.pure]
  | cons x xs ih =>
    rw [List.forM_cons]
    cases hx : g x with
    | error e =>
      constructor
      · rintro ⟨⟩
        exact ⟨[], x, xs, rfl, by simp, hx⟩
      · rintro ⟨before, y, after, heq, hbefore, hy⟩
        cases before with
        | nil =>
          cases heq
          exact hx.symm.trans hy
        | cons b before =>
          cases heq
          rw [hbefore x List.mem_cons_self] at hx
          cases hx
    | ok u =>
      refine Iff.trans ih ?_
      constructor
      · rintro ⟨before, y, after, rfl, hbefore, hy⟩
        exact ⟨x :: before, y, after, rfl, List.forall_mem_cons.mpr ⟨hx, hbefore⟩, hy⟩
      · rintro ⟨before, y, after, heq, hbefore, hy⟩
        cases before with
        | nil =>
          cases heq
          rw [hy] at hx
          cases hx
        | cons b before =>
          cases heq
          exact ⟨before, y, after, rfl, (List.forall_mem_cons.mp hbefore).2, hy⟩

end

end GuardedRtl.Rtl
