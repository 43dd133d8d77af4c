import GuardedRtl.Proofs.Rewriting
import GuardedRtl.Proofs.Sifting
import GuardedRtl.Rtl.Eval

/-! Substitution. A change that puts an expression in the place of the references to a name, and leaves
every other node as it is, makes of a well-formed expression a well-formed one, and its value is that of
the old expression with the name bound to the value of what was put in. -/

namespace GuardedRtl.Rtl

/-- Puts expressions in the places of references. -/
def substituting (σ : String → Expr) : Node → Except Error (Option Node)
  | .expr (.ref name) => .ok (some (.expr (σ name)))
  | n => .ok (some n)

/-- Puts `r` in the place of `x` only. -/
def replacing (x : String) (r : Expr) (name : String) : Expr :=
  if name = x then r else .ref name

/-- What is put in the place of an atom. -/
def Expr.replacedAtom (σ : String → Expr) : Expr → Expr
  | .ref name => σ name
  | e => e

/-- The expression with others in the places of its references. -/
abbrev Expr.subst (σ : String → Expr) (e : Expr) : Expr := e.mapAtoms (Expr.replacedAtom σ)

section

variable {σ : String → Expr}

/-! The change is the substitution -/

/-- There are no references in a type, so it stays. -/
theorem Ty.transform_substituting (t : Ty) (hpresent : t.isPresent) :
    t.transform (substituting σ) = .ok (some (.type t)) := by
  have htype : ∀ t, substituting σ (.type t) = sift silent never (.type t) := fun _ => rfl
  have hfield : ∀ p, substituting σ (.field p) = sift silent never (.field p) := fun _ => rfl
  have hsweep : sweep silent never t.held = .ok () := by
    rw [sweep_never]
    exact forM_eq_ok.mpr fun _ _ => rfl
  rw [Ty.transform_sift htype hfield t hpresent, hsweep, t.pruned_never]
  rfl

theorem Ty.refill_substituting (owner field : String) (t : Ty) :
    t.refill owner field (t.transform (substituting σ)) = .ok t := by
  by_cases hp : t.isPresent
  · rw [refill, if_pos hp, t.transform_substituting hp]
    rfl
  · rw [refill, if_neg hp, eq_absent hp]
    rfl

namespace Expr

theorem exchanges_substituting : Exchanges (substituting σ) (replacedAtom σ) fun _ => True where
  atom a hp ha o := by
    cases a with
    | absent => cases hp
    | ref name | leaf l => exact pure_eq_ok_of trivial
    | literal value type =>
      rw [transform, Ty.refill_substituting]
      exact pure_eq_ok_of trivial
    | _ => cases ha
  operation e he := by
    cases e with
    | absent | ref name | literal value type | leaf l => cases he
    | _ => rfl
  operation_holds _ _ := trivial

theorem transform_eq_subst (e : Expr) (hpresent : e.isPresent) :
    e.transform (substituting σ) = .ok (some (.expr (e.subst σ))) := by
  rw [exchanges_substituting.transform_iff e hpresent]
  exact ⟨fun _ _ => trivial, rfl⟩

/-! What it keeps -/

variable (hpresent : ∀ name, (σ name).isPresent)

include hpresent

theorem isPresent_subst (e : Expr) : (e.subst σ).isPresent = e.isPresent := by
  cases e with
  | ref name => exact hpresent name
  | _ => rfl

theorem accepted_subst (hσ : ∀ name, (ref name).Accepted → (σ name).Accepted) (e : Expr)
    (he : e.Accepted) : (e.subst σ).Accepted := by
  induction e with
  | absent | literal value type => exact he
  | leaf l => exact (not_accepted_leaf l he).elim
  | ref name => exact hσ name he
  | mux s a b ihs iha ihb =>
    obtain ⟨hself, hs, ha, hb⟩ := (accepted_mux s a b).mp he
    rw [subst, mapAtoms, accepted_mux]
    simp only [isPresent_subst hpresent]
    exact ⟨hself, ihs hs, iha ha, ihb hb⟩
  | validIf v a ihv iha =>
    obtain ⟨hself, hv, ha⟩ := (accepted_validIf v a).mp he
    rw [subst, mapAtoms, accepted_validIf, isPresent_subst hpresent, isPresent_subst hpresent]
    exact ⟨hself, ihv hv, iha ha⟩
  | binary op a b iha ihb =>
    obtain ⟨hself, ha, hb⟩ := (accepted_binary op a b).mp he
    rw [subst, mapAtoms, accepted_binary, isPresent_subst hpresent, isPresent_subst hpresent]
    exact ⟨hself, iha ha, ihb hb⟩
  | compare op a b iha ihb =>
    obtain ⟨hself, ha, hb⟩ := (accepted_compare op a b).mp he
    rw [subst, mapAtoms, accepted_compare, isPresent_subst hpresent, isPresent_subst hpresent]
    exact ⟨hself, iha ha, ihb hb⟩
  | unary op a ih =>
    obtain ⟨hself, ha⟩ := (accepted_unary op a).mp he
    rw [subst, mapAtoms, accepted_unary, isPresent_subst hpresent]
    exact ⟨hself, ih ha⟩
  | pad a w ih =>
    obtain ⟨hself, ha⟩ := (accepted_pad a w).mp he
    rw [subst, mapAtoms, accepted_pad, isPresent_subst hpresent]
    exact ⟨hself, ih ha⟩
  | shiftLeft a n k iha ihk =>
    obtain ⟨hself, ha, hk⟩ := (accepted_shiftLeft a k n).mp he
    rw [subst, mapAtoms, accepted_shiftLeft, isPresent_subst hpresent, isPresent_subst hpresent]
    exact ⟨hself, iha ha, ihk hk⟩
  | shiftRight a n k iha ihk =>
    obtain ⟨hself, ha, hk⟩ := (accepted_shiftRight a k n).mp he
    rw [subst, mapAtoms, accepted_shiftRight, isPresent_subst hpresent, isPresent_subst hpresent]
    exact ⟨hself, iha ha, ihk hk⟩
  | bits a hi lo ih =>
    obtain ⟨hself, ha⟩ := (accepted_bits a hi lo).mp he
    rw [subst, mapAtoms, accepted_bits, isPresent_subst hpresent]
    exact ⟨hself, ih ha⟩
  | head a n ih =>
    obtain ⟨hself, ha⟩ := (accepted_head a n).mp he
    rw [subst, mapAtoms, accepted_head, isPresent_subst hpresent]
    exact ⟨hself, ih ha⟩
  | tail a n ih =>
    obtain ⟨hself, ha⟩ := (accepted_tail a n).mp he
    rw [subst, mapAtoms, accepted_tail, isPresent_subst hpresent]
    exact ⟨hself, ih ha⟩

/-- Putting in expressions is as good as giving their values to the names. -/
theorem value_subst {env env' : Env}
    (hσ : ∀ name, (σ name).value env = (ref name).value env') (e : Expr) :
    (e.subst σ).value env = e.value env' := by
  induction e with
  | absent | literal value type | leaf l => rfl
  | ref name => exact hσ name
  | mux s a b ihs iha ihb => simp only [mapAtoms, value, ihs, iha, ihb]
  | validIf a b iha ihb | binary op a b iha ihb | compare op a b iha ihb =>
    simp only [mapAtoms, value, iha, ihb]
  | shiftLeft a n b iha ihb | shiftRight a n b iha ihb =>
    -- which of the two shifts it is does not change
    simp only [mapAtoms, value, isPresent_subst hpresent, iha, ihb]
  | unary op a ih | pad a w ih | bits a hi lo ih | head a n ih | tail a n ih =>
    simp only [mapAtoms, value, ih]

end Expr

end

theorem value_replacing {x : String} {r : Expr} {env : Env} {v : Value} (hv : r.value env = .ok v)
    (name : String) :
    (replacing x r name).value env = (Expr.ref name).value (env.bind x v) := by
  rw [replacing, Expr.value, Env.bind]
  by_cases hname : name = x
  · rw [if_pos hname, if_pos hname, hv]
  · rw [if_neg hname, if_neg hname, Expr.value]

/-- Putting a well-formed expression `r` with the value `v` in the place of the references to `x` gives
a well-formed expression, which has the value, or the error, that `e` has where `x` is `v`. -/
theorem transform_replacing (e r : Expr) (x : String) (env : Env) (v : Value)
    (he : e.isPresent) (hr : r.isPresent) (hchecked : (Node.expr e).check = .ok ())
    (hchecked' : (Node.expr r).check = .ok ()) (hv : r.value env = .ok v) :
    ∃ e' : Expr, (Node.expr e).transform (substituting (replacing x r)) = .ok (some (.expr e')) ∧
      e'.isPresent ∧ (Node.expr e').check = .ok () ∧ e'.value env = e.value (env.bind x v) := by
  have hpresent : ∀ name, (replacing x r name).isPresent := by
    intro name
    rw [replacing]
    split
    · exact hr
    · rfl
  have haccepted : ∀ name, (Expr.ref name).Accepted → (replacing x r name).Accepted := by
    intro name hname
    rw [replacing]
    split
    · exact hchecked'
    · exact hname
  exact ⟨e.subst (replacing x r), e.transform_eq_subst he, (e.isPresent_subst hpresent).trans he,
    e.accepted_subst hpresent haccepted hchecked, e.value_subst hpresent (value_replacing hv)⟩

/-- A dynamic shift by `n`, with `n` given as a sum that is one bit wider. -/
theorem transform_replacing_shown :
    let e : Expr := .shiftLeft (.binary .add (.ref "a") (.literal 1 (.uint 4))) 0 (.ref "n")
    let r : Expr := .binary .add (.ref "a") (.ref "n")
    let env := (Env.empty.bind "a" ⟨2, 4⟩).bind "n" ⟨1, 2⟩
    r.value env = .ok ⟨3, 5⟩ ∧ e.value (env.bind "n" ⟨3, 5⟩) = .ok ⟨24, 36⟩ ∧
    ∃ e' : Expr, (Node.expr e).transform (substituting (replacing "n" r)) = .ok (some (.expr e')) ∧
      (Node.expr e').check = .ok () ∧ e'.value env = .ok ⟨24, 36⟩ := by
  intro e r env
  have hv : r.value env = .ok ⟨3, 5⟩ := by decide +kernel
  have hvalue : e.value (env.bind "n" ⟨3, 5⟩) = .ok ⟨24, 36⟩ := by decide +kernel
  obtain ⟨e', htransform, -, hcheck, hvalue'⟩ := transform_replacing e r "n" env ⟨3, 5⟩ rfl rfl
    (by decide +kernel) (by decide +kernel) hv
  exact ⟨hv, hvalue, e', htransform, hcheck, hvalue'.trans hvalue⟩

end GuardedRtl.Rtl
