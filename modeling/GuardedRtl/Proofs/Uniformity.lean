import GuardedRtl.Rtl.Eval
import Mathlib.Tactic

/-! Widths and failures do not depend on data. Two evaluations of one expression, over environments
that differ at most in the bits of their values, end in the same error or in values of one width.
Where an operation looks at bits, it does so only to choose the bits of its result. -/

namespace GuardedRtl.Rtl

/-- Two outcomes that differ at most in the bits of a value. -/
inductive SameWidth : Except Error Value → Except Error Value → Prop
  | ok {u v : Value} (h : u.width = v.width) : SameWidth (.ok u) (.ok v)
  | error (e : Error) : SameWidth (.error e) (.error e)

theorem SameWidth.bind {x y : Except Error Value} {f g : Value → Except Error Value}
    (h : SameWidth x y) (hfg : ∀ u v, u.width = v.width → SameWidth (f u) (g v)) :
    SameWidth (x >>= f) (y >>= g) := by
  cases h with
  | ok h => exact hfg _ _ h
  | error e => exact .error e

/-- A choice that looks only at widths is made in the same way twice. -/
theorem SameWidth.ite {c : Prop} [Decidable c] {x x' y y' : Except Error Value}
    (hx : SameWidth x x') (hy : SameWidth y y') :
    SameWidth (if c then x else y) (if c then x' else y') := by
  split_ifs
  · exact hx
  · exact hy

theorem widen_sameWidth (b c : UInt64) (w : Int64) : SameWidth (widen b w) (widen c w) :=
  .ite (.error _) (.ok rfl)

section

variable {a a' b b' : Value} (ha : a.width = a'.width) (hb : b.width = b'.width)

include ha hb

theorem evalBinary_sameWidth (op : BinaryOp) :
    SameWidth (evalBinary op a b) (evalBinary op a' b') := by
  obtain ⟨x, v⟩ := a
  obtain ⟨y, w⟩ := b
  obtain ⟨x', _⟩ := a'
  obtain ⟨y', _⟩ := b'
  subst ha hb
  cases op with
  | add => exact widen_sameWidth _ _ _
  | sub => exact widen_sameWidth _ _ _
  | mul => exact widen_sameWidth _ _ _
  | div => exact .ok rfl
  | rem => exact .ok rfl
  | and => exact .ok rfl
  | or => exact .ok rfl
  | xor => exact .ok rfl
  | cat => exact .ite (.error _) (.ok rfl)
  | unknown code => exact .error _

omit ha hb in
theorem evalCompare_sameWidth (op : CompareOp) :
    SameWidth (evalCompare op a b) (evalCompare op a' b') := by
  cases op with
  | unknown code => exact .error _
  | _ => exact .ok rfl

theorem evalShiftLeft_sameWidth : SameWidth (evalShiftLeft a b) (evalShiftLeft a' b') := by
  unfold evalShiftLeft
  rw [ha, hb]
  exact .ite (.error _) (widen_sameWidth _ _ _)

end

section

variable {a a' : Value} (ha : a.width = a'.width)

include ha

theorem evalUnary_sameWidth (op : UnaryOp) : SameWidth (evalUnary op a) (evalUnary op a') := by
  cases op with
  | asUInt => exact .ok ha
  | asClock => exact .ok ha
  | not => exact .ok ha
  | asSInt => exact .error _
  | toSigned => exact .error _
  | neg => exact .error _
  | unknown code => exact .error _

theorem evalBits_sameWidth (hi lo : Int64) :
    SameWidth (evalBits a hi lo) (evalBits a' hi lo) := by
  unfold evalBits
  rw [ha]
  exact .ite (.error _) (.ok rfl)

theorem evalHead_sameWidth (n : Int64) : SameWidth (evalHead a n) (evalHead a' n) := by
  unfold evalHead
  rw [ha]
  exact .ite (.error _) (.ok rfl)

theorem evalTail_sameWidth (n : Int64) : SameWidth (evalTail a n) (evalTail a' n) := by
  unfold evalTail
  rw [ha]
  exact .ite (.error _) (.ok rfl)

end

/-- The environments give values of the same widths to the same names. -/
def Env.SameWidths (env env' : Env) : Prop :=
  ∀ x, (env x).map Value.width = (env' x).map Value.width

theorem Env.SameWidths.ref {env env' : Env} (h : env.SameWidths env') (x : String) :
    SameWidth ((Expr.ref x).value env) ((Expr.ref x).value env') := by
  have hx := h x
  unfold Expr.value
  cases hv : env x with
  | none =>
    rw [hv, Option.map_none, eq_comm, Option.map_eq_none_iff] at hx
    rw [hx]
    exact .error _
  | some v =>
    rw [hv, Option.map_some, eq_comm, Option.map_eq_some_iff] at hx
    obtain ⟨v', hv', hwidth⟩ := hx
    rw [hv']
    exact .ok hwidth.symm

theorem value_sameWidth {env env' : Env} (h : env.SameWidths env') (e : Expr) :
    SameWidth (e.value env) (e.value env') := by
  induction e with
  | absent => exact .error _
  | ref x => exact h.ref x
  | literal v t =>
    cases t with
    | uint w => exact widen_sameWidth _ _ _
    | _ => exact .error _
  | mux s a b ihs iha ihb =>
    -- Both branches are evaluated, and the width is that of the wider one, whichever is chosen.
    refine ihs.bind fun _ _ _ => iha.bind fun x x' hx => ihb.bind fun y y' hy => .ok ?_
    change max x.width y.width = max x'.width y'.width
    rw [hx, hy]
  | validIf v a ihv iha => exact ihv.bind fun _ _ _ => iha.bind fun _ _ hx => .ok hx
  | binary op a b iha ihb =>
    exact iha.bind fun _ _ hx => ihb.bind fun _ _ hy => evalBinary_sameWidth hx hy op
  | compare op a b iha ihb =>
    exact iha.bind fun _ _ _ => ihb.bind fun _ _ _ => evalCompare_sameWidth op
  | unary op a ih => exact ih.bind fun _ _ hx => evalUnary_sameWidth hx op
  | pad a w ih =>
    refine ih.bind fun x x' hx => ?_
    rw [hx]
    exact widen_sameWidth _ _ _
  | shiftLeft a n amount iha ihn =>
    refine iha.bind fun x x' hx => .ite ?_ ?_
    · exact ihn.bind fun _ _ hk => evalShiftLeft_sameWidth hx hk
    · rw [hx]
      exact widen_sameWidth _ _ _
  | shiftRight a n amount iha ihn =>
    refine iha.bind fun x x' hx => .ite ?_ ?_
    · exact ihn.bind fun _ _ _ => .ok hx
    · rw [hx]
      exact .ok rfl
  | bits a hi lo ih => exact ih.bind fun _ _ hx => evalBits_sameWidth hx hi lo
  | head a n ih => exact ih.bind fun _ _ hx => evalHead_sameWidth hx n
  | tail a n ih => exact ih.bind fun _ _ hx => evalTail_sameWidth hx n
  | leaf l => exact .error _

theorem eval_sameWidth {env env' : Env} (h : env.SameWidths env') (e : Expr) :
    SameWidth (e.eval env) (e.eval env') := by
  unfold Expr.eval
  cases (Node.expr e).check with
  | error err => exact .error err
  | ok _ => exact (value_sameWidth h e).bind fun _ _ hwidth => .ok hwidth

/-- Evaluation succeeds in both environments, with values of one width, or fails in both with the
same error. -/
theorem eval_uniform (e : Expr) (env env' : Env)
    (h : ∀ x, (env x).map Value.width = (env' x).map Value.width) :
    (∃ v v', e.eval env = .ok v ∧ e.eval env' = .ok v' ∧ v.width = v'.width) ∨
      ∃ err, e.eval env = .error err ∧ e.eval env' = .error err := by
  have hsame := eval_sameWidth h e
  generalize e.eval env = x at hsame ⊢
  generalize e.eval env' = y at hsame ⊢
  cases hsame with
  | ok hwidth => exact .inl ⟨_, _, rfl, rfl, hwidth⟩
  | error err => exact .inr ⟨err, rfl, rfl⟩

/-- A quotient or a moved number, by the value of `s`. -/
def quotientOrShift : Expr :=
  .mux (.ref "s") (.binary .div (.ref "a") (.ref "b"))
    (.validIf (.ref "b") (.shiftLeft (.ref "a") 0 (.ref "n")))

def fourOperands (s a b n : UInt64) : Env :=
  (((Env.empty.bind "s" ⟨s, 1⟩).bind "a" ⟨a, 8⟩).bind "b" ⟨b, 8⟩).bind "n" ⟨n, 2⟩

/-- A division by zero has the width of a shift that is never made. -/
theorem eval_uniform_quotientOrShift :
    quotientOrShift.eval (fourOperands 1 7 0 3) = .ok ⟨0, 11⟩ ∧
    ∃ v, quotientOrShift.eval (fourOperands 0 200 3 2) = .ok v ∧ v.width = 11 := by
  have hzero : quotientOrShift.eval (fourOperands 1 7 0 3) = .ok ⟨0, 11⟩ := by decide +kernel
  have hwidths : ∀ x, (fourOperands 1 7 0 3 x).map Value.width =
      (fourOperands 0 200 3 2 x).map Value.width := by
    intro x
    simp only [fourOperands, Env.bind]
    split_ifs <;> rfl
  refine ⟨hzero, ?_⟩
  rcases eval_uniform quotientOrShift _ _ hwidths with ⟨u, v, hu, hv, hwidth⟩ | ⟨err, herr, -⟩
  · rw [hzero, Except.ok.injEq] at hu
    exact ⟨v, hv, by rw [← hwidth, ← hu]⟩
  · rw [hzero] at herr
    cases herr

end GuardedRtl.Rtl
