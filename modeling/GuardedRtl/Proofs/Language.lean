import GuardedRtl.Proofs.Check
import GuardedRtl.Rtl.Eval
import GuardedRtl.Rtl.Print

/-! The check, the text and the evaluation know the same language. What passes the check has nothing
left blank in its text, at any depth (`Node.textless_eq_nil`), so it is printed; and its evaluation
fails only for what its names stand for or for want of bits, never because something in it is unknown
(`value_known`). -/

namespace GuardedRtl.Rtl

theorem requireType_eq_ok {kind : String} {t : Ty} :
    requireType kind t = .ok () ↔ t.isPresent := by
  rw [requireType, ite_error_ok]
  exact and_iff_left rfl

/-! Nothing is left blank -/

mutual

theorem Ty.textless_eq_nil (t : Ty) (hpresent : t.isPresent) (h : AllAccepted t.trees) :
    t.textless = [] := by
  cases t with
  | absent => cases hpresent
  | uint w => rfl
  | sint w => rfl
  | clock => rfl
  | vector elem count =>
    obtain ⟨hself, -, helem⟩ := allAccepted_singleton.mp h
    refine Ty.textless_eq_nil elem ?_ helem
    by_contra hnone
    rw [Bool.not_eq_true] at hnone
    simp [Node.checkSelf, Ty.checkSelf, hnone] at hself
  | bundle fields => exact Field.textlessIn_eq_nil fields (allAccepted_singleton.mp h).2.2
  | foreign kind => cases (allAccepted_singleton.mp h).1
termination_by structural t

theorem Field.textlessIn_eq_nil (fields : List Field) (h : AllAccepted (Field.trees fields)) :
    Field.textlessIn fields = [] := by
  cases fields with
  | nil => rfl
  | cons f fields =>
    obtain ⟨name, type⟩ := f
    obtain ⟨⟨hself, -, htype⟩, hfields⟩ := allAccepted_cons.mp h
    obtain ⟨-, -, hpresent⟩ := bind_eq_ok.mp hself
    exact List.append_eq_nil_iff.mpr
      ⟨Ty.textless_eq_nil type (requireType_eq_ok.mp hpresent) htype,
        Field.textlessIn_eq_nil fields hfields⟩
termination_by structural fields

end

theorem Expr.textless_eq_nil (e : Expr) (hpresent : e.isPresent) (h : e.Accepted) :
    e.textless = [] := by
  induction e with
  | absent => cases hpresent
  | leaf l => exact absurd h (not_accepted_leaf l)
  | ref x => rfl
  | literal v t =>
    obtain ⟨hliteral, htype⟩ := (accepted_literal v t).mp h
    have ht : t.isPresent := by
      cases t with
      | absent => cases hliteral
      | _ => rfl
    exact Ty.textless_eq_nil t ht htype
  | mux s a b ihs iha ihb =>
    obtain ⟨⟨ps, pa, pb⟩, as, aa, ab⟩ := (accepted_mux s a b).mp h
    rw [textless, ihs ps as, iha pa aa, ihb pb ab]
    rfl
  | validIf v a ihv iha =>
    obtain ⟨⟨pv, pa⟩, av, aa⟩ := (accepted_validIf v a).mp h
    rw [textless, ihv pv av, iha pa aa]
    rfl
  | binary op a b iha ihb =>
    obtain ⟨⟨-, pa, pb⟩, aa, ab⟩ := (accepted_binary op a b).mp h
    rw [textless, iha pa aa, ihb pb ab]
    rfl
  | compare op a b iha ihb =>
    obtain ⟨⟨-, pa, pb⟩, aa, ab⟩ := (accepted_compare op a b).mp h
    rw [textless, iha pa aa, ihb pb ab]
    rfl
  | unary op a ih =>
    obtain ⟨⟨-, pa⟩, aa⟩ := (accepted_unary op a).mp h
    exact ih pa aa
  | pad a w ih =>
    obtain ⟨⟨pa, -⟩, aa⟩ := (accepted_pad a w).mp h
    exact ih pa aa
  | shiftLeft a n amount iha ihn =>
    obtain ⟨⟨-, pa, -⟩, aa, an⟩ := (accepted_shiftLeft a amount n).mp h
    rw [textless, iha pa aa, List.nil_append]
    -- An amount that is not filled in leaves no blank: the shift is static.
    split_ifs with pn
    · exact ihn pn an
    · rfl
  | shiftRight a n amount iha ihn =>
    obtain ⟨⟨-, pa, -⟩, aa, an⟩ := (accepted_shiftRight a amount n).mp h
    rw [textless, iha pa aa, List.nil_append]
    split_ifs with pn
    · exact ihn pn an
    · rfl
  | bits a hi lo ih =>
    obtain ⟨⟨pa, -⟩, aa⟩ := (accepted_bits a hi lo).mp h
    exact ih pa aa
  | head a n ih =>
    obtain ⟨⟨pa, -⟩, aa⟩ := (accepted_head a n).mp h
    exact ih pa aa
  | tail a n ih =>
    obtain ⟨⟨pa, -⟩, aa⟩ := (accepted_tail a n).mp h
    exact ih pa aa

theorem Reset.textless_eq_nil {r : Reset} (h : AllAccepted [r.tree]) : r.textless = [] := by
  obtain ⟨hself, -, hoperands⟩ := allAccepted_singleton.mp h
  have hpresent : r.enable.isPresent ∧ r.value.isPresent := by
    simpa [Node.checkSelf, requireOperands_ok] using hself
  obtain ⟨henable, hvalue⟩ := allAccepted_append.mp hoperands
  rw [textless, r.enable.textless_eq_nil hpresent.1 henable,
    r.value.textless_eq_nil hpresent.2 hvalue]
  rfl

theorem Stmt.textless_eq_nil {s : Stmt} (hpresent : s.isPresent) (h : AllAccepted s.trees) :
    s.textless = [] := by
  cases s with
  | absent => cases hpresent
  | foreign kind => cases (allAccepted_singleton.mp h).1
  | connect lhs rhs =>
    obtain ⟨hself, -, hparts⟩ := allAccepted_singleton.mp h
    have hrhs : rhs.isPresent := by
      simp only [Node.checkSelf, checkSelf] at hself
      split_ifs at hself
      simpa [requireOperands_ok] using hself
    exact rhs.textless_eq_nil hrhs (allAccepted_append.mp hparts).2
  | register name type clock reset =>
    obtain ⟨hself, -, hparts⟩ := allAccepted_singleton.mp h
    obtain ⟨-, -, hself⟩ := bind_eq_ok.mp hself
    obtain ⟨_, htype, hself⟩ := bind_eq_ok.mp hself
    have hclock : clock.isPresent := by simpa [requireOperands_ok] using hself
    simp only [allAccepted_append] at hparts
    obtain ⟨⟨htype', hclock'⟩, hreset⟩ := hparts
    rw [textless, type.textless_eq_nil (requireType_eq_ok.mp htype) htype',
      clock.textless_eq_nil hclock hclock']
    cases reset with
    | none => rfl
    | some r => simpa using Reset.textless_eq_nil hreset
  | wire name type =>
    obtain ⟨hself, -, htype⟩ := allAccepted_singleton.mp h
    obtain ⟨-, -, hself⟩ := bind_eq_ok.mp hself
    exact type.textless_eq_nil (requireType_eq_ok.mp hself) htype
  | printf clock condition format args =>
    obtain ⟨hself, -, hparts⟩ := allAccepted_singleton.mp h
    obtain ⟨hargs, hself⟩ := ite_error_ok.mp hself
    have hoperands : clock.isPresent ∧ condition.isPresent := by
      simpa [requireOperands_ok] using hself
    rw [List.all_eq_true] at hargs
    simp only [allAccepted_append, allAccepted_flatMap] at hparts
    obtain ⟨⟨hclock, hcondition⟩, hargs'⟩ := hparts
    rw [textless, clock.textless_eq_nil hoperands.1 hclock,
      condition.textless_eq_nil hoperands.2 hcondition]
    exact List.flatMap_eq_nil_iff.mpr fun e he => e.textless_eq_nil (hargs e he) (hargs' e he)
  | stop clock condition exitCode =>
    obtain ⟨hself, -, hparts⟩ := allAccepted_singleton.mp h
    have hoperands : clock.isPresent ∧ condition.isPresent := by
      simpa [Node.checkSelf, checkSelf, requireOperands_ok] using hself
    obtain ⟨hclock, hcondition⟩ := allAccepted_append.mp hparts
    rw [textless, clock.textless_eq_nil hoperands.1 hclock,
      condition.textless_eq_nil hoperands.2 hcondition]
    rfl

theorem Port.textless_eq_nil {p : Port} (h : AllAccepted [p.tree]) : p.type.textless = [] := by
  obtain ⟨hself, -, htype⟩ := allAccepted_singleton.mp h
  obtain ⟨-, -, hself⟩ := bind_eq_ok.mp hself
  obtain ⟨_, hpresent, -⟩ := bind_eq_ok.mp hself
  exact p.type.textless_eq_nil (requireType_eq_ok.mp hpresent) htype

theorem Module.parts_accepted {m : Module} (h : AllAccepted [m.tree]) :
    (∀ p ∈ m.ports, AllAccepted [p.tree]) ∧
      ∀ s ∈ m.statements, s.isPresent ∧ AllAccepted s.trees := by
  obtain ⟨hself, -, hparts⟩ := allAccepted_singleton.mp h
  obtain ⟨-, -, hself⟩ := bind_eq_ok.mp hself
  obtain ⟨hpresent, -⟩ := ite_error_ok.mp hself
  rw [List.all_eq_true] at hpresent
  rw [List.map_eq_flatMap] at hparts
  simp only [allAccepted_append, allAccepted_flatMap] at hparts
  exact ⟨hparts.1, fun s hs => ⟨hpresent s hs, hparts.2 s hs⟩⟩

theorem Circuit.modules_accepted {c : Circuit} (h : (Node.circuit c).check = .ok ()) :
    ∀ m ∈ c.modules, AllAccepted [m.tree] := by
  have hmodules := (allAccepted_singleton.mp h).2.2
  rwa [List.map_eq_flatMap, allAccepted_flatMap] at hmodules

theorem Module.textless_eq_nil {m : Module} (h : AllAccepted [m.tree]) : m.textless = [] := by
  obtain ⟨hports, hstatements⟩ := Module.parts_accepted h
  rw [textless, List.append_eq_nil_iff, List.flatMap_eq_nil_iff, List.flatMap_eq_nil_iff]
  exact ⟨fun p hp => Port.textless_eq_nil (hports p hp),
    fun s hs => Stmt.textless_eq_nil (hstatements s hs).1 (hstatements s hs).2⟩

/-- Whether the place is filled in. -/
def Node.isPresent : Node → Bool
  | .type t => t.isPresent
  | .expr e => e.isPresent
  | .stmt s => s.isPresent
  | _ => true

theorem Node.textless_eq_nil {n : Node} (hpresent : n.isPresent) (h : n.check = .ok ()) :
    n.textless = [] := by
  cases n with
  | type t => exact t.textless_eq_nil hpresent h
  | field f =>
    obtain ⟨hself, -, htype⟩ := allAccepted_singleton.mp h
    obtain ⟨-, -, hself⟩ := bind_eq_ok.mp hself
    exact f.type.textless_eq_nil (requireType_eq_ok.mp hself) htype
  | expr e => exact e.textless_eq_nil hpresent h
  | stmt s => exact Stmt.textless_eq_nil hpresent h
  | reset r => exact Reset.textless_eq_nil h
  | port p => exact Port.textless_eq_nil h
  | module m => exact Module.textless_eq_nil h
  | circuit c =>
    have hmodules := Circuit.modules_accepted h
    exact List.flatMap_eq_nil_iff.mpr fun m hm => Module.textless_eq_nil (hmodules m hm)

theorem Node.print_of_check {n : Node} (hpresent : n.isPresent) (h : n.check = .ok ()) :
    n.print = .ok n.text := by
  rw [print, h, Node.textless_eq_nil hpresent h]
  rfl

theorem Node.print_of_error {n : Node} {err : Error} (h : n.check = .error err) :
    n.print = .error err := by
  rw [print, h]
  rfl

theorem Node.print_absent {n : Node} (h : ¬ n.isPresent) :
    n.print = .error (.unhandled .print (placeKind none)) := by
  cases n with
  | type t =>
    cases t with
    | absent => rfl
    | _ => exact absurd rfl h
  | expr e =>
    cases e with
    | absent => rfl
    | _ => exact absurd rfl h
  | stmt s =>
    cases s with
    | absent => rfl
    | _ => exact absurd rfl h
  | _ => exact absurd rfl h

theorem Node.print_ok_iff {n : Node} :
    (∃ text, n.print = .ok text) ↔ n.isPresent ∧ n.check = .ok () := by
  constructor
  · rintro ⟨text, htext⟩
    by_cases hpresent : n.isPresent
    · cases hcheck : n.check with
      | error err =>
        rw [print_of_error hcheck] at htext
        cases htext
      | ok _ => exact ⟨hpresent, rfl⟩
    · rw [print_absent hpresent] at htext
      cases htext
  · rintro ⟨hpresent, hcheck⟩
    exact ⟨n.text, print_of_check hpresent hcheck⟩

/-! Nothing is unknown to the evaluation -/

/-- Whether an evaluation that fails in this way knows all that the expression is made of. -/
def Error.IsKnown : Error → Prop
  | .evaluation (.unknownOperator _) => False
  | .evaluation (.signedOperation op) => op.isKnown
  | .evaluation _ => True
  | .invalid _ _ => True
  | _ => False

/-- If the outcome is an error, then one about something known. -/
def Known (x : Except Error Value) : Prop := ∀ err, x = .error err → err.IsKnown

theorem Known.ok (v : Value) : Known (.ok v) := fun err h => by cases h

theorem Known.error {err : Error} (h : err.IsKnown) : Known (.error err) := by
  rintro _ ⟨⟩
  exact h

theorem Known.ite {c : Prop} [Decidable c] {x y : Except Error Value} (hx : Known x)
    (hy : Known y) : Known (if c then x else y) := by
  split_ifs
  · exact hx
  · exact hy

theorem Known.bind {x : Except Error Value} {f : Value → Except Error Value} (hx : Known x)
    (hf : ∀ v, Known (f v)) : Known (x >>= f) := by
  cases x with
  | error err => exact hx
  | ok v => exact hf v

theorem widen_known (bits : UInt64) (w : Int64) : Known (widen bits w) :=
  .ite (.error trivial) (.ok _)

theorem evalBinary_known {op : BinaryOp} (hop : op.isKnown) (a b : Value) :
    Known (evalBinary op a b) := by
  cases op with
  | add => exact widen_known _ _
  | sub => exact widen_known _ _
  | mul => exact widen_known _ _
  | cat => exact .ite (.error trivial) (.ok _)
  | unknown code => cases hop
  | _ => exact .ok _

theorem evalCompare_known {op : CompareOp} (hop : op.isKnown) (a b : Value) :
    Known (evalCompare op a b) := by
  cases op with
  | unknown code => cases hop
  | _ => exact .ok _

theorem evalUnary_known {op : UnaryOp} (hop : op.isKnown) (a : Value) :
    Known (evalUnary op a) := by
  cases op with
  | asUInt => exact .ok _
  | asClock => exact .ok _
  | not => exact .ok _
  | _ => exact .error hop

theorem value_known (env : Env) (e : Expr) (hpresent : e.isPresent) (h : e.Accepted) :
    Known (e.value env) := by
  induction e with
  | absent => cases hpresent
  | leaf l => exact absurd h (Expr.not_accepted_leaf l)
  | ref x =>
    unfold Expr.value
    cases env x with
    | none => exact .error trivial
    | some v => exact .ok v
  | literal v t =>
    cases t with
    | uint w => exact widen_known _ _
    | _ => exact .error trivial
  | mux s a b ihs iha ihb =>
    obtain ⟨⟨ps, pa, pb⟩, as, aa, ab⟩ := (Expr.accepted_mux s a b).mp h
    exact (ihs ps as).bind fun _ => (iha pa aa).bind fun _ => (ihb pb ab).bind fun _ => .ok _
  | validIf v a ihv iha =>
    obtain ⟨⟨pv, pa⟩, av, aa⟩ := (Expr.accepted_validIf v a).mp h
    exact (ihv pv av).bind fun _ => (iha pa aa).bind fun _ => .ok _
  | binary op a b iha ihb =>
    obtain ⟨⟨hop, pa, pb⟩, aa, ab⟩ := (Expr.accepted_binary op a b).mp h
    exact (iha pa aa).bind fun _ => (ihb pb ab).bind fun _ => evalBinary_known hop _ _
  | compare op a b iha ihb =>
    obtain ⟨⟨hop, pa, pb⟩, aa, ab⟩ := (Expr.accepted_compare op a b).mp h
    exact (iha pa aa).bind fun _ => (ihb pb ab).bind fun _ => evalCompare_known hop _ _
  | unary op a ih =>
    obtain ⟨⟨hop, pa⟩, aa⟩ := (Expr.accepted_unary op a).mp h
    exact (ih pa aa).bind fun _ => evalUnary_known hop _
  | pad a w ih =>
    obtain ⟨⟨pa, -⟩, aa⟩ := (Expr.accepted_pad a w).mp h
    exact (ih pa aa).bind fun _ => widen_known _ _
  | shiftLeft a n amount iha ihn =>
    obtain ⟨⟨-, pa, -⟩, aa, an⟩ := (Expr.accepted_shiftLeft a amount n).mp h
    refine (iha pa aa).bind fun _ => ?_
    split_ifs with pn
    · exact (ihn pn an).bind fun _ => .ite (.error trivial) (widen_known _ _)
    · exact widen_known _ _
  | shiftRight a n amount iha ihn =>
    obtain ⟨⟨-, pa, -⟩, aa, an⟩ := (Expr.accepted_shiftRight a amount n).mp h
    refine (iha pa aa).bind fun _ => ?_
    split_ifs with pn
    · exact (ihn pn an).bind fun _ => .ok _
    · exact .ok _
  | bits a hi lo ih =>
    obtain ⟨⟨pa, -⟩, aa⟩ := (Expr.accepted_bits a hi lo).mp h
    exact (ih pa aa).bind fun _ => .ite (.error trivial) (.ok _)
  | head a n ih =>
    obtain ⟨⟨pa, -⟩, aa⟩ := (Expr.accepted_head a n).mp h
    exact (ih pa aa).bind fun _ => .ite (.error trivial) (.ok _)
  | tail a n ih =>
    obtain ⟨⟨pa, -⟩, aa⟩ := (Expr.accepted_tail a n).mp h
    exact (ih pa aa).bind fun _ => .ite (.error trivial) (.ok _)

theorem eval_known {env : Env} {e : Expr} (hpresent : e.isPresent) (h : e.Accepted) :
    Known (e.eval env) := by
  unfold Expr.eval
  rw [show (Node.expr e).check = .ok () from h]
  exact (value_known env e hpresent h).bind fun _ => .ok _

/-- What is printed is what is there and passes the check, and what the check says otherwise is all
that printing says. No expression that passes the check is unknown to the evaluation, nor an operator
in it. -/
theorem one_language :
    (∀ place : Option Node, (∃ text, printPlace place = .ok text) ↔
      ∃ n, place = some n ∧ n.isPresent ∧ n.check = .ok ()) ∧
    (∀ (n : Node) (err : Error), n.check = .error err → printPlace (some n) = .error err) ∧
    ∀ (e : Expr) (env : Env) (err : Error), e.isPresent → (Node.expr e).check = .ok () →
      e.eval env = .error err →
      (∀ pass kind, err ≠ .unhandled pass kind) ∧ ∀ op, err ≠ .evaluation (.unknownOperator op) := by
  refine ⟨fun place => ?_, fun n err h => Node.print_of_error h, ?_⟩
  · cases place with
    | none =>
      constructor
      · rintro ⟨text, htext⟩
        cases htext
      · rintro ⟨n, hn, -⟩
        cases hn
    | some n =>
      refine Node.print_ok_iff.trans ⟨fun h => ⟨n, rfl, h⟩, ?_⟩
      rintro ⟨m, hm, h⟩
      cases hm
      exact h
  · intro e env err hpresent hcheck herr
    have hknown := eval_known hpresent hcheck err herr
    constructor
    · rintro pass kind rfl
      exact hknown
    · rintro op rfl
      exact hknown

/-- A sum of `x` and one. -/
def increment (op : BinaryOp) : Expr := .binary op (.ref "x") (.literal 1 (.uint 8))

/-- The sum is printed, and with an operator that there is not it is refused; evaluated where `x` has
no value, it fails for that. -/
theorem one_language_increment :
    (∃ text, printPlace (some (.expr (increment .add))) = .ok text) ∧
    printPlace (some (.expr (increment (.unknown 9)))) = .error (mismatch "BinOp" "Op") ∧
    (increment .add).eval Env.empty = .error (.evaluation (.unknownReference "x")) ∧
    Error.evaluation (.unknownReference "x") ≠ .unhandled .eval "Ref" := by
  obtain ⟨hprinted, hrefused, hevaluated⟩ := one_language
  have herr : (increment .add).eval Env.empty = .error (.evaluation (.unknownReference "x")) := by
    decide +kernel
  refine ⟨(hprinted _).mpr ⟨_, rfl, rfl, by decide +kernel⟩, hrefused _ _ (by decide +kernel), herr, ?_⟩
  exact (hevaluated (increment .add) Env.empty _ rfl (by decide +kernel) herr).1 .eval "Ref"

end GuardedRtl.Rtl
