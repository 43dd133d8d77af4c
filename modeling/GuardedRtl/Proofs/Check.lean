import GuardedRtl.Rtl.Check
import Mathlib.Tactic

/-! What the check accepts, one kind of node at a time. A visit that only fails or goes on succeeds
when each of its calls does, so a check is the conjunction of the checks of all nodes of the tree. -/

namespace GuardedRtl.Rtl

theorem bind_eq_ok {α β : Type} {x : Except Error α} {f : α → Except Error β} {b : β} :
    (x >>= f) = .ok b ↔ ∃ a, x = .ok a ∧ f a = .ok b := by
  cases x <;> simp [bind, Except.bind]

theorem pure_eq_ok {α : Type} {a b : α} : (pure a : Except Error α) = .ok b ↔ b = a :=
  ⟨fun h => (Except.ok.inj h).symm, fun h => h ▸ rfl⟩

theorem pure_eq_ok_of {α : Type} {a b : α} {P : Prop} (h : P) :
    (pure a : Except Error α) = .ok b ↔ P ∧ b = a :=
  pure_eq_ok.trans (and_iff_right h).symm

theorem error_eq_ok_of {α : Type} {e : Error} {b : α} {P Q : Prop} (h : ¬ P) :
    (.error e : Except Error α) = .ok b ↔ P ∧ Q :=
  ⟨fun h => (by cases h), fun hpq => absurd hpq.1 h⟩

section

variable {f : Node → Except Error Bool}

theorem visitAll_nil_ok : Tree.visitAll f [] = .ok () := rfl

theorem visitAll_cons_ok {t : Tree} {ts : List Tree} :
    Tree.visitAll f (t :: ts) = .ok () ↔ t.visit f = .ok () ∧ Tree.visitAll f ts = .ok () := by
  rw [Tree.visitAll, bind_eq_ok]
  constructor
  · rintro ⟨⟨⟩, h⟩
    exact h
  · exact fun h => ⟨(), h⟩

theorem visitAll_append_ok {ts us : List Tree} :
    Tree.visitAll f (ts ++ us) = .ok () ↔
      Tree.visitAll f ts = .ok () ∧ Tree.visitAll f us = .ok () := by
  induction ts with
  | nil => simp [visitAll_nil_ok]
  | cons t ts ih => simp only [List.cons_append, visitAll_cons_ok, ih, and_assoc]

theorem visit_node_ok {n : Node} {cs : List Tree} :
    (Tree.node n cs).visit f = .ok () ↔
      f n = .ok false ∨ f n = .ok true ∧ n.isKnown ∧ Tree.visitAll f cs = .ok () := by
  rw [Tree.visit, bind_eq_ok]
  constructor
  · rintro ⟨b, hb, h⟩
    cases b with
    | false => exact .inl hb
    | true =>
      cases hk : n.isKnown with
      | true => exact .inr ⟨hb, rfl, by simpa [hk] using h⟩
      | false => simp [hk, throw, throwThe, MonadExceptOf.throw] at h
  · rintro (hb | ⟨hb, hk, h⟩)
    · exact ⟨false, hb, rfl⟩
    · exact ⟨true, hb, by simpa [hk] using h⟩

end

/-- Whether the check has nothing to say against any of the trees. -/
def AllAccepted (ts : List Tree) : Prop :=
  Tree.visitAll (fun n => do n.checkSelf; pure true : Node → Except Error Bool) ts = .ok ()

def Expr.Accepted (e : Expr) : Prop := (Node.expr e).check = .ok ()

instance (e : Expr) : Decidable e.Accepted := inferInstanceAs (Decidable (_ = _))

theorem allAccepted_nil : AllAccepted [] := rfl

theorem allAccepted_append {ts us : List Tree} :
    AllAccepted (ts ++ us) ↔ AllAccepted ts ∧ AllAccepted us := visitAll_append_ok

theorem allAccepted_cons {n : Node} {cs ts : List Tree} :
    AllAccepted (.node n cs :: ts) ↔
      (n.checkSelf = .ok () ∧ n.isKnown ∧ AllAccepted cs) ∧ AllAccepted ts := by
  unfold AllAccepted
  rw [visitAll_cons_ok, visit_node_ok]
  cases n.checkSelf <;> simp [bind, Except.bind, pure, Except.pure]

theorem allAccepted_singleton {n : Node} {cs : List Tree} :
    AllAccepted [.node n cs] ↔ n.checkSelf = .ok () ∧ n.isKnown ∧ AllAccepted cs := by
  simp [allAccepted_cons, allAccepted_nil]

theorem allAccepted_flatMap {α : Type} {g : α → List Tree} {xs : List α} :
    AllAccepted (xs.flatMap g) ↔ ∀ x ∈ xs, AllAccepted (g x) := by
  induction xs with
  | nil => simp [allAccepted_nil]
  | cons x xs ih => simp [allAccepted_append, ih]

theorem ite_error_ok {c : Prop} [Decidable c] {x : Except Error Unit} {e : Error} :
    (if c then x else .error e) = .ok () ↔ c ∧ x = .ok () := by
  split_ifs with h <;> simp [h]

theorem requireOperands_ok {kind : String} {es : List (String × Expr)} :
    requireOperands kind es = .ok () ↔ ∀ p ∈ es, p.2.isPresent := by
  induction es with
  | nil => simp [requireOperands]
  | cons p es ih =>
    rw [requireOperands]
    by_cases h : p.2.isPresent <;> simp [h, ih]

theorem checkCounted_ok {kind : String} {e : Expr} {n : Int64} :
    checkCounted kind e n = .ok () ↔ e.isPresent ∧ 0 ≤ n := by
  unfold checkCounted
  by_cases h : e.isPresent <;> by_cases hn : n < 0 <;> simp [h, hn, ← Int64.not_lt]

theorem checkShift_ok {kind : String} {e amount : Expr} {n : Int64} :
    checkShift kind e n amount = .ok () ↔
      (amount.isPresent → n = 0) ∧ e.isPresent ∧ 0 ≤ n := by
  unfold checkShift
  by_cases h : amount.isPresent <;> by_cases hn : n = 0 <;> simp [h, hn, checkCounted_ok]

namespace Expr

theorem accepted_iff (e : Expr) : e.Accepted ↔ AllAccepted e.trees := Iff.rfl

/-- An expression is accepted when it and its operands are. -/
theorem accepted_node {e : Expr} {cs : List Tree} (h : e.trees = [.node (.expr e) cs])
    (hknown : (Node.expr e).isKnown) : e.Accepted ↔ e.checkSelf = .ok () ∧ AllAccepted cs := by
  rw [accepted_iff, h, allAccepted_singleton]
  exact and_congr_right fun _ => and_iff_right hknown

theorem accepted_literal (v : Int64) (t : Ty) :
    (literal v t).Accepted ↔ checkLiteral v t = .ok () ∧ AllAccepted t.trees :=
  accepted_node rfl rfl

theorem accepted_mux (s a b : Expr) :
    (mux s a b).Accepted ↔ (s.isPresent ∧ a.isPresent ∧ b.isPresent) ∧
      s.Accepted ∧ a.Accepted ∧ b.Accepted := by
  have hself : (mux s a b).checkSelf = .ok () ↔ s.isPresent ∧ a.isPresent ∧ b.isPresent :=
    requireOperands_ok.trans (by simp)
  rw [accepted_node (e := mux s a b) rfl rfl, hself]
  simp only [accepted_iff, allAccepted_append, and_assoc]

theorem accepted_validIf (v a : Expr) :
    (validIf v a).Accepted ↔ (v.isPresent ∧ a.isPresent) ∧ v.Accepted ∧ a.Accepted := by
  have hself : (validIf v a).checkSelf = .ok () ↔ v.isPresent ∧ a.isPresent :=
    requireOperands_ok.trans (by simp)
  rw [accepted_node (e := validIf v a) rfl rfl, hself]
  simp only [accepted_iff, allAccepted_append]

theorem accepted_binary (op : BinaryOp) (a b : Expr) :
    (binary op a b).Accepted ↔ (op.isKnown ∧ a.isPresent ∧ b.isPresent) ∧
      a.Accepted ∧ b.Accepted := by
  have hself : (binary op a b).checkSelf = .ok () ↔ op.isKnown ∧ a.isPresent ∧ b.isPresent :=
    ite_error_ok.trans (and_congr_right fun _ => requireOperands_ok.trans (by simp))
  rw [accepted_node (e := binary op a b) rfl rfl, hself]
  simp only [accepted_iff, allAccepted_append]

theorem accepted_compare (op : CompareOp) (a b : Expr) :
    (compare op a b).Accepted ↔ (op.isKnown ∧ a.isPresent ∧ b.isPresent) ∧
      a.Accepted ∧ b.Accepted := by
  have hself : (compare op a b).checkSelf = .ok () ↔ op.isKnown ∧ a.isPresent ∧ b.isPresent :=
    ite_error_ok.trans (and_congr_right fun _ => requireOperands_ok.trans (by simp))
  rw [accepted_node (e := compare op a b) rfl rfl, hself]
  simp only [accepted_iff, allAccepted_append]

theorem accepted_unary (op : UnaryOp) (e : Expr) :
    (unary op e).Accepted ↔ (op.isKnown ∧ e.isPresent) ∧ e.Accepted := by
  have hself : (unary op e).checkSelf = .ok () ↔ op.isKnown ∧ e.isPresent :=
    ite_error_ok.trans (and_congr_right fun _ => requireOperands_ok.trans (by simp))
  rw [accepted_node (e := unary op e) rfl rfl, hself, accepted_iff]

theorem accepted_pad (e : Expr) (n : Int64) :
    (pad e n).Accepted ↔ (e.isPresent ∧ 0 ≤ n) ∧ e.Accepted :=
  (accepted_node rfl rfl).trans (and_congr_left' checkCounted_ok)

theorem accepted_shiftLeft (e amount : Expr) (n : Int64) :
    (shiftLeft e n amount).Accepted ↔
      ((amount.isPresent → n = 0) ∧ e.isPresent ∧ 0 ≤ n) ∧ e.Accepted ∧ amount.Accepted :=
  (accepted_node rfl rfl).trans (and_congr checkShift_ok allAccepted_append)

theorem accepted_shiftRight (e amount : Expr) (n : Int64) :
    (shiftRight e n amount).Accepted ↔
      ((amount.isPresent → n = 0) ∧ e.isPresent ∧ 0 ≤ n) ∧ e.Accepted ∧ amount.Accepted :=
  (accepted_node rfl rfl).trans (and_congr checkShift_ok allAccepted_append)

theorem accepted_bits (e : Expr) (hi lo : Int64) :
    (bits e hi lo).Accepted ↔ (e.isPresent ∧ 0 ≤ lo ∧ lo ≤ hi) ∧ e.Accepted := by
  refine (accepted_node rfl rfl).trans (and_congr_left' ?_)
  change (if !e.isPresent then _ else if lo < 0 then _ else if hi < lo then _ else Except.ok ()) = _
    ↔ _
  by_cases h : e.isPresent <;> by_cases hl : lo < 0 <;> by_cases hh : hi < lo <;>
    simp [h, hl, hh, ← Int64.not_lt]

theorem accepted_head (e : Expr) (n : Int64) :
    (head e n).Accepted ↔ (e.isPresent ∧ 0 ≤ n) ∧ e.Accepted :=
  (accepted_node rfl rfl).trans (and_congr_left' checkCounted_ok)

theorem accepted_tail (e : Expr) (n : Int64) :
    (tail e n).Accepted ↔ (e.isPresent ∧ 0 ≤ n) ∧ e.Accepted :=
  (accepted_node rfl rfl).trans (and_congr_left' checkCounted_ok)

theorem not_accepted_leaf (l : Leaf) : ¬ (leaf l).Accepted := by
  rw [accepted_iff]
  intro h
  cases (allAccepted_singleton.mp h).1

end Expr

end GuardedRtl.Rtl
