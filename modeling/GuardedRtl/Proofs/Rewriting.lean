import GuardedRtl.Proofs.Check
import GuardedRtl.Proofs.Reference
import GuardedRtl.Rtl.Transform

/-! Changes that exchange the atoms of an expression, its references, leaves and literals, and leave its
operations as they are. Such a change succeeds exactly if it does at every atom, and then it has put what
it makes of the atoms in their places: `Exchanges.transform_iff`. Lowering and substitution are two. -/

namespace GuardedRtl.Rtl

/-- Whether the expression is made of operands. -/
def Expr.isOperation : Expr → Bool
  | .absent | .ref _ | .literal _ _ | .leaf _ => false
  | .mux _ _ _ | .validIf _ _ | .binary _ _ _ | .compare _ _ _ | .unary _ _ | .pad _ _
  | .shiftLeft _ _ _ | .shiftRight _ _ _ | .bits _ _ _ | .head _ _ | .tail _ _ => true

/-- The expression with its atoms exchanged. -/
def Expr.mapAtoms (g : Expr → Expr) : Expr → Expr
  | .absent => .absent
  | .ref name => g (.ref name)
  | .literal value type => g (.literal value type)
  | .mux sel a b => .mux (sel.mapAtoms g) (a.mapAtoms g) (b.mapAtoms g)
  | .validIf valid a => .validIf (valid.mapAtoms g) (a.mapAtoms g)
  | .binary op a b => .binary op (a.mapAtoms g) (b.mapAtoms g)
  | .compare op a b => .compare op (a.mapAtoms g) (b.mapAtoms g)
  | .unary op e => .unary op (e.mapAtoms g)
  | .pad e width => .pad (e.mapAtoms g) width
  | .shiftLeft e places amount => .shiftLeft (e.mapAtoms g) places (amount.mapAtoms g)
  | .shiftRight e places amount => .shiftRight (e.mapAtoms g) places (amount.mapAtoms g)
  | .bits e hi lo => .bits (e.mapAtoms g) hi lo
  | .head e count => .head (e.mapAtoms g) count
  | .tail e count => .tail (e.mapAtoms g) count
  | .leaf l => g (.leaf l)

/-- The change `f` makes `g a` of an atom `a` if `P a`, and fails otherwise; operations stay. -/
structure Exchanges (f : Node → Except Error (Option Node)) (g : Expr → Expr) (P : Expr → Prop) :
    Prop where
  atom : ∀ a : Expr, a.isPresent → a.isOperation = false →
    ∀ o, a.transform f = .ok o ↔ P a ∧ o = some (.expr (g a))
  operation : ∀ e : Expr, e.isOperation → f (.expr e) = .ok (some (.expr e))
  operation_holds : ∀ e : Expr, e.isOperation → P e

/-- What is put into a place if all that changing its part can give is `y`. An absent part stays so. -/
theorem refilled_iff {α : Type} {kind field : String} {cast : Node → Option α} {node : α → Node}
    {present : Bool} {changed : Except Error (Option Node)} {empty x y : α} {P : Prop}
    (hcast : cast (node y) = some y)
    (hpresent : present → ∀ o, changed = .ok o ↔ P ∧ o = some (node y))
    (habsent : ¬ present → P ∧ y = empty) :
    (if present then changed >>= required kind field cast else pure empty) = .ok x ↔ P ∧ x = y := by
  split_ifs with hp
  · have hfilled : (required kind field cast (some (node y)) : Except Error α) = pure y := by
      rw [required, hcast]
    simp only [bind_eq_ok, hpresent hp, and_assoc, exists_and_left, exists_eq_left, hfilled,
      pure_eq_ok]
  · obtain ⟨hP, rfl⟩ := habsent hp
    exact pure_eq_ok_of hP

theorem Expr.refill_iff {kind field : String} {e x : Expr} {changed : Except Error (Option Node)}
    {P : Expr → Prop} {g : Expr → Expr}
    (h : e.isPresent → ∀ o, changed = .ok o ↔
      (∀ p ∈ e.parts, P p) ∧ o = some (.expr (e.mapAtoms g))) :
    e.refill kind field changed = .ok x ↔ (∀ p ∈ e.parts, P p) ∧ x = e.mapAtoms g := by
  refine refilled_iff rfl h fun hp => ?_
  obtain rfl : e = .absent := by simpa [isPresent] using hp
  exact ⟨List.forall_mem_nil _, rfl⟩

theorem Expr.refillOptional_iff {kind field : String} {e x : Expr}
    {changed : Except Error (Option Node)} {P : Expr → Prop} {g : Expr → Expr}
    (h : e.isPresent → ∀ o, changed = .ok o ↔
      (∀ p ∈ e.parts, P p) ∧ o = some (.expr (e.mapAtoms g))) :
    e.refillOptional kind field changed = .ok x ↔ (∀ p ∈ e.parts, P p) ∧ x = e.mapAtoms g := by
  rw [← refill_iff h]
  unfold refillOptional refill
  split_ifs with hp
  · -- nothing is dropped, so the two kinds of place are filled alike
    rcases changed with err | _ | n
    · rfl
    · exact absurd ((h hp none).mp rfl).2 (by simp)
    · rfl
  · rfl

namespace Exchanges

variable {f : Node → Except Error (Option Node)} {g : Expr → Expr} {P : Expr → Prop}

theorem operation_iff (h : Exchanges f g P) {e : Expr} (he : e.isOperation) {o : Option Node} :
    f (.expr e) = .ok o ↔ o = some (.expr e) := by
  rw [h.operation e he]
  exact pure_eq_ok

/-- The change goes through exactly if every part allows it, and then the atoms are exchanged. -/
theorem transform_iff (h : Exchanges f g P) (e : Expr) (hp : e.isPresent) (o : Option Node) :
    e.transform f = .ok o ↔ (∀ p ∈ e.parts, P p) ∧ o = some (.expr (e.mapAtoms g)) := by
  induction e generalizing o with
  | absent => cases hp
  | ref name | literal value type | leaf l =>
    simpa only [Expr.parts, List.forall_mem_singleton, Expr.mapAtoms] using h.atom _ rfl rfl o
  | mux s a b ihs iha ihb =>
    simp only [Expr.transform, bind_eq_ok, Expr.refill_iff ihs, Expr.refill_iff iha,
      Expr.refill_iff ihb, Expr.forall_parts hp, Expr.AllOperands, Expr.mapAtoms, and_assoc,
      exists_and_left, exists_eq_left]
    rw [h.operation_iff, and_iff_right (h.operation_holds _ ?_)] <;> rfl
  | validIf a b iha ihb | binary op a b iha ihb | compare op a b iha ihb =>
    simp only [Expr.transform, bind_eq_ok, Expr.refill_iff iha, Expr.refill_iff ihb,
      Expr.forall_parts hp, Expr.AllOperands, Expr.mapAtoms, and_assoc, exists_and_left,
      exists_eq_left]
    rw [h.operation_iff, and_iff_right (h.operation_holds _ ?_)] <;> rfl
  | shiftLeft a n amount iha ihn | shiftRight a n amount iha ihn =>
    simp only [Expr.transform, bind_eq_ok, Expr.refill_iff iha, Expr.refillOptional_iff ihn,
      Expr.forall_parts hp, Expr.AllOperands, Expr.mapAtoms, and_assoc, exists_and_left,
      exists_eq_left]
    rw [h.operation_iff, and_iff_right (h.operation_holds _ ?_)] <;> rfl
  | unary op a ih | pad a w ih | bits a hi lo ih | head a n ih | tail a n ih =>
    simp only [Expr.transform, bind_eq_ok, Expr.refill_iff ih, Expr.forall_parts hp,
      Expr.AllOperands, Expr.mapAtoms, and_assoc, exists_and_left, exists_eq_left]
    rw [h.operation_iff, and_iff_right (h.operation_holds _ ?_)] <;> rfl

end Exchanges

end GuardedRtl.Rtl
