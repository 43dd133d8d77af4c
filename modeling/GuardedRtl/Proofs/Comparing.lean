import GuardedRtl.Proofs.Delimited
import GuardedRtl.Proofs.Uniformity
import GuardedRtl.Rtl.Equivalence
import Mathlib.Data.Nat.Bitwise

/-! Comparison of expressions over one-bit inputs. The counter of a comparison runs through all
assignments of zeros and ones to the inputs, so up to twelve inputs the comparison succeeds exactly for
expressions that agree everywhere. A difference that it reports is the first one; and a failure does not
depend on the assignment. -/

namespace GuardedRtl.Rtl

/-- The inputs have the bits that `σ` gives them, and no other name has a value. -/
def inputEnv (names : List String) (σ : String → Bool) : Env :=
  fun x => if x ∈ names then some (.ofBool (σ x)) else none

/-- The bits of `v`, that of the first input the least significant. -/
def inputBits (names : List String) (v : ℕ) : String → Bool := fun x => v.testBit (names.idxOf x)

/-- No name but those given has a value. -/
def Env.Only (names : List String) (env : Env) : Prop := ∀ x ∉ names, env x = none

/-- Both expressions have a value, and the values have the same bits. -/
def Agree (e₁ e₂ : Expr) (env : Env) : Prop :=
  ∃ v₁ v₂, e₁.eval env = .ok v₁ ∧ e₂.eval env = .ok v₂ ∧ v₁.bits = v₂.bits

/-! Assignments -/

theorem Env.assign_map (env : Env) (names : List String) (σ : String → Bool) :
    env.assign (names.map fun x => (x, σ x)) =
      fun x => if x ∈ names then some (.ofBool (σ x)) else env x := by
  unfold assign
  induction names generalizing env with
  | nil => simp
  | cons name names ih =>
    -- A later binding of the same name gives it the same value, so the names need not differ here.
    rw [List.map_cons, List.foldl_cons, ih]
    funext x
    by_cases hx : x = name <;> simp [Env.bind, hx]

theorem inputEnv_only (names : List String) (σ : String → Bool) : (inputEnv names σ).Only names :=
  fun _ hx => if_neg hx

theorem assignment_eq_map {names : List String} (hnodup : names.Nodup) (v i : ℕ) :
    assignment v i names = names.map fun x => (x, v.testBit (i + names.idxOf x)) := by
  induction names generalizing i with
  | nil => rfl
  | cons name names ih =>
    obtain ⟨hname, hnodup⟩ := List.nodup_cons.mp hnodup
    rw [assignment, ih hnodup, List.map_cons, List.idxOf_cons_self]
    congr 1
    apply List.map_congr_left
    intro x hx
    have hne : name ≠ x := by
      rintro rfl
      exact hname hx
    rw [List.idxOf_cons_ne _ hne, Nat.add_right_comm, Nat.add_assoc]

theorem assignment_zero {names : List String} (hnodup : names.Nodup) (v : ℕ) :
    assignment v 0 names = names.map fun x => (x, inputBits names v x) := by
  rw [assignment_eq_map hnodup]
  simp only [inputBits, Nat.zero_add]

/-- An assignment to all inputs leaves nothing of the one before it. -/
theorem assign_assignment {names : List String} (hnodup : names.Nodup) {env : Env}
    (henv : env.Only names) (v : ℕ) :
    env.assign (assignment v 0 names) = inputEnv names (inputBits names v) := by
  rw [assignment_zero hnodup, Env.assign_map]
  funext x
  unfold inputEnv
  split_ifs with hx
  · rfl
  · exact henv x hx

/-- Each assignment is that of a number. -/
theorem exists_inputBits (names : List String) (σ : String → Bool) :
    ∃ v < 2 ^ names.length, inputEnv names σ = inputEnv names (inputBits names v) := by
  refine ⟨Nat.ofBits fun i : Fin names.length => σ (names.get i), Nat.ofBits_lt_two_pow _, ?_⟩
  funext x
  unfold inputEnv inputBits
  split_ifs with hx
  · rw [Nat.testBit_ofBits_lt _ _ (List.idxOf_lt_length_of_mem hx)]
    simp
  · rfl

/-- Assignments of bits differ in no width. -/
theorem inputEnv_sameWidths (names : List String) (σ τ : String → Bool) :
    (inputEnv names σ).SameWidths (inputEnv names τ) := by
  intro x
  unfold inputEnv
  split_ifs <;> rfl

/-! The comparison under one assignment, and the first at which it does not hold -/

section

variable (e₁ e₂ : Expr)

/-- What a comparison says of an environment. -/
inductive Judges (inputs : List (String × Bool)) (env : Env) : Comparison → Prop
  | same (h : Agree e₁ e₂ env) : Judges inputs env .same
  | different {v₁ v₂ : Value} (h₁ : e₁.eval env = .ok v₁) (h₂ : e₂.eval env = .ok v₂)
      (hne : v₁.bits ≠ v₂.bits) : Judges inputs env (.different ⟨inputs, v₁.bits, v₂.bits⟩)
  | failed {err : Error} (h : e₁.eval env = .error err ∨ e₂.eval env = .error err) :
      Judges inputs env (.failed err)

theorem compareUnder_judges (env : Env) (inputs : List (String × Bool)) :
    Judges e₁ e₂ inputs env (compareUnder e₁ e₂ env inputs) := by
  unfold compareUnder
  cases h₁ : e₁.eval env with
  | error err => exact .failed (.inl h₁)
  | ok v₁ =>
    cases h₂ : e₂.eval env with
    | error err => exact .failed (.inr h₂)
    | ok v₂ =>
      by_cases h : v₁.bits = v₂.bits
      · simp only [h, if_true]
        exact .same ⟨v₁, v₂, h₁, h₂, h⟩
      · simp only [h, if_false]
        exact .different h₁ h₂ h

/-- The comparison under the assignment of a number. -/
def compareAt (names : List String) (v : ℕ) : Comparison :=
  compareUnder e₁ e₂ (inputEnv names (inputBits names v)) (assignment v 0 names)

variable {e₁ e₂} {names : List String} {env : Env} {v : ℕ} {vs : List ℕ}

theorem compareUnderAll_cons_same (hnodup : names.Nodup) (henv : env.Only names)
    (h : compareAt e₁ e₂ names v = .same) :
    compareUnderAll e₁ e₂ env ((v :: vs).map fun v => assignment v 0 names) =
      compareUnderAll e₁ e₂ (inputEnv names (inputBits names v))
        (vs.map fun v => assignment v 0 names) := by
  unfold compareAt at h
  simp only [List.map_cons, compareUnderAll, assign_assignment hnodup henv, h]

theorem compareUnderAll_cons_ne (hnodup : names.Nodup) (henv : env.Only names)
    (h : compareAt e₁ e₂ names v ≠ .same) :
    compareUnderAll e₁ e₂ env ((v :: vs).map fun v => assignment v 0 names) =
      compareAt e₁ e₂ names v := by
  cases hfirst : compareAt e₁ e₂ names v with
  | same => exact absurd hfirst h
  | different d | failed err =>
    unfold compareAt at hfirst
    simp only [List.map_cons, compareUnderAll, assign_assignment hnodup henv, hfirst]

/-- The comparison is settled at the first assignment where it does not hold. -/
theorem compareUnderAll_first (hnodup : names.Nodup) (henv : env.Only names)
    (h : compareUnderAll e₁ e₂ env (vs.map fun v => assignment v 0 names) ≠ .same) :
    ∃ k, ∃ hk : k < vs.length,
      compareUnderAll e₁ e₂ env (vs.map fun v => assignment v 0 names) =
        compareAt e₁ e₂ names vs[k] ∧
      ∀ j, ∀ hj : j < k, compareAt e₁ e₂ names vs[j] = .same := by
  induction vs generalizing env with
  | nil => exact absurd rfl h
  | cons v vs ih =>
    by_cases hfirst : compareAt e₁ e₂ names v = .same
    · rw [compareUnderAll_cons_same hnodup henv hfirst] at h ⊢
      obtain ⟨k, hk, heq, hbelow⟩ := ih (inputEnv_only names _) h
      refine ⟨k + 1, Nat.succ_lt_succ hk, heq, fun j hj => ?_⟩
      cases j with
      | zero => exact hfirst
      | succ j => exact hbelow j (Nat.lt_of_succ_lt_succ hj)
    · exact ⟨0, Nat.succ_pos _, compareUnderAll_cons_ne hnodup henv hfirst, fun j hj => by omega⟩

theorem compareUnderAll_same (hnodup : names.Nodup) (henv : env.Only names)
    (h : compareUnderAll e₁ e₂ env (vs.map fun v => assignment v 0 names) = .same) :
    ∀ v ∈ vs, compareAt e₁ e₂ names v = .same := by
  induction vs generalizing env with
  | nil => simp
  | cons v vs ih =>
    by_cases hfirst : compareAt e₁ e₂ names v = .same
    · rw [compareUnderAll_cons_same hnodup henv hfirst] at h
      exact List.forall_mem_cons.mpr ⟨hfirst, ih (inputEnv_only names _) h⟩
    · rw [compareUnderAll_cons_ne hnodup henv hfirst] at h
      exact absurd h hfirst

end

/-! The text of a difference -/

def bitChar (b : Bool) : Char := if b then '1' else '0'

theorem bitChar_injective : Function.Injective bitChar := by decide

theorem toList_assignmentText_cons (name : String) (b : Bool) (rest : List (String × Bool)) :
    (assignmentText ((name, b) :: rest)).toList =
      name.toList ++ '=' :: bitChar b ::
        (if rest = [] then [] else ',' :: ' ' :: (assignmentText rest).toList) := by
  have hbit : (bitText b).toList = [bitChar b] := by cases b <;> rfl
  cases rest with
  | nil => simp [assignmentText, hbit]
  | cons i rest => simp [assignmentText, hbit]

/-- For inputs of known names the text tells their bits, and where it ends. -/
theorem assignmentText_unique {as bs : List (String × Bool)} {r s : List Char}
    (hnames : as.map Prod.fst = bs.map Prod.fst)
    (h : (assignmentText as).toList ++ r = (assignmentText bs).toList ++ s) : as = bs ∧ r = s := by
  induction as generalizing bs with
  | nil =>
    rw [List.map_nil, eq_comm, List.map_eq_nil_iff] at hnames
    subst hnames
    exact ⟨rfl, h⟩
  | cons i as ih =>
    obtain ⟨name, b⟩ := i
    cases bs with
    | nil => cases hnames
    | cons j bs =>
      obtain ⟨name', b'⟩ := j
      rw [List.map_cons, List.map_cons, List.cons.injEq] at hnames
      obtain ⟨rfl, hnames⟩ := hnames
      have hempty : as = [] ↔ bs = [] := by
        rw [← List.map_eq_nil_iff (f := Prod.fst), hnames, List.map_eq_nil_iff]
      simp only [toList_assignmentText_cons, List.append_assoc, List.cons_append,
        List.append_cancel_left_eq, List.cons.injEq, true_and, hempty] at h
      obtain ⟨hbit, h⟩ := h
      obtain rfl := bitChar_injective hbit
      by_cases hbs : bs = []
      · obtain rfl := hempty.mpr hbs
        subst hbs
        exact ⟨rfl, h⟩
      · simp only [hbs, if_false, List.cons_append, List.cons.injEq, true_and] at h
        obtain ⟨rfl, rfl⟩ := ih hnames h
        exact ⟨rfl, rfl⟩

theorem toNat_repr_injective {x y : UInt64}
    (h : (Nat.repr x.toNat).toList = (Nat.repr y.toNat).toList) : x = y :=
  UInt64.toNat.inj (Text.repr_injective (String.toList_injective h))

theorem Difference.toList_message (d : Difference) :
    d.message.toList = "\nExpected ".toList ++ ((assignmentText d.inputs).toList ++
      (" => ".toList ++ ((Nat.repr d.expected.toNat).toList ++
        ("\nGot ".toList ++ (Nat.repr d.got.toNat).toList)))) := by
  simp only [message, String.toList_append, List.append_assoc]
  rfl

/-- The text of a difference tells the assignment and both values. -/
theorem Difference.message_unique {d d' : Difference}
    (hnames : d.inputs.map Prod.fst = d'.inputs.map Prod.fst) (h : d.message = d'.message) : d = d' := by
  have htext := congrArg String.toList h
  rw [toList_message, toList_message, List.append_cancel_left_eq] at htext
  obtain ⟨hinputs, htext⟩ := assignmentText_unique hnames htext
  rw [List.append_cancel_left_eq] at htext
  obtain ⟨hexpected, htext⟩ := run_unique Char.isDigit (fun _ => Text.isDigit_of_mem_repr)
    (fun _ => Text.isDigit_of_mem_repr) (by simp) (by simp) htext
  rw [List.append_cancel_left_eq] at htext
  obtain ⟨inputs, expected, got⟩ := d
  obtain ⟨inputs', expected', got'⟩ := d'
  obtain rfl := toNat_repr_injective hexpected
  obtain rfl := toNat_repr_injective htext
  subst hinputs
  rfl

/-! All assignments -/

section

variable {names : List String} {samples : List ℕ} {e₁ e₂ : Expr}

theorem Judges.agree {inputs : List (String × Bool)} {env : Env}
    (h : Judges e₁ e₂ inputs env .same) : Agree e₁ e₂ env := by
  cases h with
  | same h => exact h

theorem Judges.eq_same {inputs : List (String × Bool)} {env : Env} {c : Comparison}
    (h : Judges e₁ e₂ inputs env c) (hagree : Agree e₁ e₂ env) : c = .same := by
  obtain ⟨v₁, v₂, h₁, h₂, heq⟩ := hagree
  cases h with
  | same _ => rfl
  | different h₁' h₂' hne =>
    rw [h₁, Except.ok.injEq] at h₁'
    rw [h₂, Except.ok.injEq] at h₂'
    exact absurd (h₁' ▸ h₂' ▸ heq) hne
  | failed herr =>
    rw [h₁, h₂] at herr
    rcases herr with herr | herr <;> cases herr

theorem judges_compareAt (e₁ e₂ : Expr) (names : List String) (v : ℕ) :
    Judges e₁ e₂ (assignment v 0 names) (inputEnv names (inputBits names v))
      (compareAt e₁ e₂ names v) :=
  compareUnder_judges e₁ e₂ _ _

theorem empty_only (names : List String) : Env.empty.Only names := fun _ _ => rfl

variable (hlength : names.length ≤ 12) (hnodup : names.Nodup)

include hlength

theorem compareExprs_eq :
    compareExprs names samples e₁ e₂ =
      compareUnderAll e₁ e₂ Env.empty
        ((List.range (2 ^ names.length)).map fun v => assignment v 0 names) := by
  unfold compareExprs assignments
  rw [if_pos (show names.length ≤ exhaustiveLimit from hlength)]
  rfl

include hnodup

/-- A comparison that does not hold says so of the first number whose assignment sets the expressions
apart or fails. -/
theorem compareExprs_first (h : compareExprs names samples e₁ e₂ ≠ .same) :
    ∃ v < 2 ^ names.length,
      Judges e₁ e₂ (assignment v 0 names) (inputEnv names (inputBits names v))
        (compareExprs names samples e₁ e₂) ∧
      ∀ u < v, Agree e₁ e₂ (inputEnv names (inputBits names u)) := by
  rw [compareExprs_eq hlength] at h ⊢
  obtain ⟨v, hv, heq, hbelow⟩ := compareUnderAll_first hnodup (empty_only names) h
  simp only [List.length_range, List.getElem_range] at hv heq hbelow
  refine ⟨v, hv, heq ▸ judges_compareAt e₁ e₂ names v, fun u hu => ?_⟩
  exact (hbelow u hu ▸ judges_compareAt e₁ e₂ names u).agree

theorem compareExprs_eq_same_iff :
    compareExprs names samples e₁ e₂ = .same ↔ ∀ σ, Agree e₁ e₂ (inputEnv names σ) := by
  constructor
  · intro h σ
    obtain ⟨v, hv, henv⟩ := exists_inputBits names σ
    rw [compareExprs_eq hlength] at h
    have hunder := compareUnderAll_same hnodup (empty_only names) h v (List.mem_range.mpr hv)
    rw [henv]
    exact (hunder ▸ judges_compareAt e₁ e₂ names v).agree
  · intro h
    by_contra hne
    obtain ⟨v, -, hjudges, -⟩ := compareExprs_first hlength hnodup hne
    exact hne (hjudges.eq_same (h _))

end

/-- A failure is one of all assignments. -/
theorem eval_inputEnv_error {names : List String} {e : Expr} {σ : String → Bool} {err : Error}
    (h : e.eval (inputEnv names σ) = .error err) (τ : String → Bool) :
    e.eval (inputEnv names τ) = .error err := by
  have hsame := eval_sameWidth (inputEnv_sameWidths names σ τ) e
  rw [h] at hsame
  generalize e.eval (inputEnv names τ) = x at hsame ⊢
  cases hsame with
  | error => rfl

/-- With at most twelve distinct inputs the comparison succeeds exactly if the expressions agree under
every assignment; a difference that it reports is real, is the first one, and can be read off its text;
and if it reports a failure, one of the expressions fails under every assignment. -/
theorem compareExprs_exact (names : List String) (samples : List ℕ) (e₁ e₂ : Expr)
    (hlength : names.length ≤ 12) (hnodup : names.Nodup) :
    (compareExprs names samples e₁ e₂ = .same ↔ ∀ σ, Agree e₁ e₂ (inputEnv names σ)) ∧
    (∀ d, compareExprs names samples e₁ e₂ = .different d →
      ∃ v < 2 ^ names.length, ∃ v₁ v₂,
        d = ⟨names.map fun x => (x, inputBits names v x), v₁.bits, v₂.bits⟩ ∧
        e₁.eval (inputEnv names (inputBits names v)) = .ok v₁ ∧
        e₂.eval (inputEnv names (inputBits names v)) = .ok v₂ ∧ v₁.bits ≠ v₂.bits ∧
        (∀ u < v, Agree e₁ e₂ (inputEnv names (inputBits names u))) ∧
        ∀ d' : Difference, d'.inputs.map Prod.fst = names → d'.message = d.message → d' = d) ∧
    ∀ err, compareExprs names samples e₁ e₂ = .failed err →
      (∀ σ, e₁.eval (inputEnv names σ) = .error err) ∨
        ∀ σ, e₂.eval (inputEnv names σ) = .error err := by
  refine ⟨compareExprs_eq_same_iff hlength hnodup, fun d hd => ?_, fun err herr => ?_⟩
  · have hne : compareExprs names samples e₁ e₂ ≠ .same := by simp [hd]
    obtain ⟨v, hv, hjudges, hbelow⟩ := compareExprs_first hlength hnodup hne
    rw [hd] at hjudges
    cases hjudges with
    | @different v₁ v₂ h₁ h₂ hbits =>
      have hinputs := assignment_zero hnodup v
      refine ⟨v, hv, v₁, v₂, by rw [hinputs], h₁, h₂, hbits, hbelow, fun d' hnames hmessage => ?_⟩
      refine Difference.message_unique ?_ hmessage
      rw [hnames, hinputs, List.map_map]
      exact (List.map_id names).symm
  · have hne : compareExprs names samples e₁ e₂ ≠ .same := by simp [herr]
    obtain ⟨v, -, hjudges, -⟩ := compareExprs_first hlength hnodup hne
    rw [herr] at hjudges
    cases hjudges with
    | failed h => exact h.imp eval_inputEnv_error eval_inputEnv_error

def eitherInput : Expr := .binary .or (.ref "a") (.ref "b")

def notNeitherInput : Expr :=
  .unary .not (.binary .and (.unary .not (.ref "a")) (.unary .not (.ref "b")))

def oneInput : Expr := .binary .xor (.ref "a") (.ref "b")

/-- Four comparisons show that two expressions agree everywhere; the fourth sets others apart; and a
name that is no input fails everywhere. -/
theorem compareExprs_exact_inputs :
    (∀ σ, Agree eitherInput notNeitherInput (inputEnv ["a", "b"] σ)) ∧
    (∃ v₁ v₂, eitherInput.eval (inputEnv ["a", "b"] (inputBits ["a", "b"] 3)) = .ok v₁ ∧
      oneInput.eval (inputEnv ["a", "b"] (inputBits ["a", "b"] 3)) = .ok v₂ ∧
      v₁.bits = 1 ∧ v₂.bits = 0) ∧
    ∀ σ, (Expr.ref "c").eval (inputEnv ["a", "b"] σ) = .error (.evaluation (.unknownReference "c")) := by
  have hnodup : ["a", "b"].Nodup := by decide
  have hsame : compareExprs ["a", "b"] [] eitherInput notNeitherInput = .same := by rfl
  have hdifferent : compareExprs ["a", "b"] [] eitherInput oneInput =
      .different ⟨[("a", true), ("b", true)], 1, 0⟩ := by rfl
  have hfailed : compareExprs ["a", "b"] [] (.ref "c") eitherInput =
      .failed (.evaluation (.unknownReference "c")) := by rfl
  have hagree := (compareExprs_exact ["a", "b"] [] _ _ (by decide) hnodup).1.mp hsame
  refine ⟨hagree, ?_, ?_⟩
  · obtain ⟨v, hv, v₁, v₂, hd, h₁, h₂, -⟩ :=
      (compareExprs_exact ["a", "b"] [] _ _ (by decide) hnodup).2.1 _ hdifferent
    obtain ⟨hinputs, hbits⟩ := Difference.mk.inj hd
    have hv3 : v = 3 := by
      change v < 4 at hv
      interval_cases v
      · cases hinputs
      · cases hinputs
      · cases hinputs
      · rfl
    subst hv3
    exact ⟨v₁, v₂, h₁, h₂, hbits.1.symm, hbits.2.symm⟩
  · rcases (compareExprs_exact ["a", "b"] [] _ _ (by decide) hnodup).2.2 _ hfailed with h | h
    · exact h
    · obtain ⟨v₁, v₂, h₁, -⟩ := hagree fun _ => false
      rw [h] at h₁
      cases h₁

end GuardedRtl.Rtl
