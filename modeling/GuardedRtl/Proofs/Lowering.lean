import GuardedRtl.Design.Elaborate
import GuardedRtl.Proofs.Drafting
import GuardedRtl.Proofs.Rewriting

/-! What elaboration makes, and when it makes anything. Lowering an expression gives its leaves the
names that they have in the circuit and changes nothing else, so a circuit can be written down without
the passes that may fail: `Design.elaborated`. -/

namespace GuardedRtl.Rtl

/-- Whether elaboration has something to put in the place of an expression, its operands apart. -/
def Expr.Translates : Expr → Prop
  | .leaf (.state _) | .leaf (.argument _) => True
  | .leaf _ => False
  | .literal _ t => t.IsNative
  | _ => True

/-- Operands may be absent: only the check of the circuit looks for them. -/
def Expr.Lowerable (e : Expr) : Prop := e.isPresent ∧ ∀ p ∈ e.parts, p.Translates

theorem Expr.Within.lowerable {args : List Argument} {e : Expr} (h : e.Within args) :
    e.Lowerable := by
  refine ⟨h.present, fun p hp => ?_⟩
  cases p with
  | leaf l =>
    have havailable := h.leaves l hp
    cases l with
    | state s => trivial
    | argument a => trivial
    | foreign kind name => exact havailable
    | unboundArgument => exact havailable
  | literal v t => exact h.literals v t hp
  | _ => trivial

/-- Whether the circuit language can declare an element that is stored like this. -/
def Storage.IsNative : Storage → Prop
  | .foreign _ => False
  | _ => True

end GuardedRtl.Rtl

namespace GuardedRtl

open Rtl

theorem mapM_eq_ok {α β : Type} {f : α → Except Error β} {g : α → β} {P : α → Prop}
    (hf : ∀ a b, f a = .ok b ↔ P a ∧ b = g a) {as : List α} {bs : List β} :
    as.mapM f = .ok bs ↔ (∀ a ∈ as, P a) ∧ bs = as.map g := by
  induction as generalizing bs with
  | nil => exact pure_eq_ok_of (List.forall_mem_nil _)
  | cons a as ih =>
    simp only [List.mapM_cons, bind_eq_ok, pure_eq_ok, hf, ih, List.forall_mem_cons, List.map_cons,
      and_assoc, exists_and_left, exists_eq_left]

theorem locate_eq_ok {α : Type} {place : String} {x : Except Error α} {a : α} :
    locate place x = .ok a ↔ x = .ok a := by
  cases x <;> simp [locate]

/-- What stands for an atom in the circuit. -/
def namedAtom (names : StateNames) : Expr → Expr
  | .leaf (.state s) => .ref (names.get s)
  | .leaf (.argument a) => .ref a.port
  | e => e

/-- The expression with every state element and argument replaced by its name. -/
abbrev renamed (names : StateNames) : Expr → Expr := Expr.mapAtoms (namedAtom names)

section

variable {names : StateNames}

theorem renamed_eq_absent {e : Expr} : renamed names e = .absent ↔ e = .absent := by
  cases e with
  | leaf l => cases l <;> simp [Expr.mapAtoms, namedAtom]
  | _ => simp [Expr.mapAtoms, namedAtom]

theorem parts_renamed (e : Expr) : (renamed names e).parts = e.parts.map (renamed names) := by
  induction e with
  | leaf l => cases l <;> rfl
  | ref name | literal v t => rfl
  | _ => simp_all [Expr.mapAtoms, Expr.parts]

/-! Lowering as a change of atoms -/

theorem refill_type {kind field : String} {t u : Ty} {changed : Except Error (Option Node)}
    (h : t.isPresent → ∀ o, changed = .ok o ↔ t.IsNative ∧ o = some (.type t)) :
    t.refill kind field changed = .ok u ↔ t.IsNative ∧ u = t := by
  refine refilled_iff rfl h fun hp => ?_
  obtain rfl : t = .absent := by simpa [Ty.isPresent] using hp
  exact ⟨trivial, rfl⟩

mutual

/-- Types hold nothing that lowering would change. -/
theorem transform_type (t : Ty) (hp : t.isPresent) (o : Option Node) :
    t.transform (lowerNode names) = .ok o ↔ t.IsNative ∧ o = some (.type t) := by
  cases t with
  | absent => cases hp
  | vector elem count =>
    simp only [Ty.transform, bind_eq_ok, refill_type (transform_type elem), and_assoc,
      exists_and_left, exists_eq_left, Ty.IsNative]
    exact and_congr_right fun _ => pure_eq_ok
  | bundle fields =>
    simp only [Ty.transform, bind_eq_ok, transformAll_fields fields, and_assoc, exists_and_left,
      exists_eq_left, Ty.IsNative]
    exact and_congr_right fun _ => pure_eq_ok
  | foreign kind => exact error_eq_ok_of id
  | uint w | sint w | clock => exact pure_eq_ok_of trivial
termination_by structural t

theorem transformAll_fields (fs gs : List Field) :
    Field.transformAll (lowerNode names) fs = .ok gs ↔ Field.AllNative fs ∧ gs = fs := by
  cases fs with
  | nil => exact pure_eq_ok_of trivial
  | cons f fs =>
    obtain ⟨name, type⟩ := f
    rw [Field.transformAll, bind_eq_ok]
    simp only [refill_type (transform_type type), and_assoc, exists_and_left, exists_eq_left,
      Field.AllNative]
    refine and_congr_right fun _ => ?_
    change (do
      let fields ← Field.transformAll (lowerNode names) fs
      pure (⟨name, type⟩ :: fields) : Except Error (List Field)) = .ok gs ↔ _
    simp only [bind_eq_ok, pure_eq_ok, transformAll_fields fs, and_assoc, exists_and_left,
      exists_eq_left]
termination_by structural fs

end

/-- Lowering gives leaves their names and refuses those that have none. -/
theorem exchanges_lowerNode : Exchanges (lowerNode names) (namedAtom names) Expr.Translates where
  atom a hp ha o := by
    cases a with
    | absent => cases hp
    | ref name => exact pure_eq_ok_of trivial
    | literal v t =>
      simp only [Expr.transform, bind_eq_ok, refill_type (transform_type t), and_assoc,
        exists_and_left, exists_eq_left, Expr.Translates]
      exact and_congr_right fun _ => pure_eq_ok
    | leaf l =>
      cases l with
      | state s => exact pure_eq_ok_of trivial
      | argument a => exact pure_eq_ok_of trivial
      | foreign kind name => exact error_eq_ok_of id
      | unboundArgument => exact error_eq_ok_of id
    | _ => cases ha
  operation e he := by
    cases e with
    | absent | ref name | literal v t | leaf l => cases he
    | _ => rfl
  operation_holds e he := by
    cases e with
    | absent | ref name | literal v t | leaf l => cases he
    | _ => trivial

theorem lowerExpr_eq_ok {e l : Expr} :
    lowerExpr names e = .ok l ↔ e.Lowerable ∧ l = renamed names e := by
  unfold lowerExpr Expr.Lowerable
  split_ifs with hp
  · change (do required _ "" Node.expr? (← e.transform (lowerNode names))) = _ ↔ _
    simp only [bind_eq_ok, exchanges_lowerNode.transform_iff e hp, and_assoc,
      exists_and_left, exists_eq_left]
    rw [and_iff_right hp]
    exact and_congr_right fun _ => pure_eq_ok
  · exact error_eq_ok_of fun h => hp h.1

end

/-! The statements of a construct -/

def effectStatement (names : StateNames) (firing : String) : Effect → Stmt
  | .display format args => .printf (.ref clockName) (.ref firing) format (args.map (renamed names))
  | .finish exitCode => .stop (.ref clockName) (.ref firing) exitCode

def updateDriver (names : StateNames) (firing : String) (u : Update) : Driver :=
  ⟨u.target, .ref firing, renamed names u.value⟩

/-- The expressions of a system task. -/
def Effect.expressions : Effect → List Expr
  | .display _ args => args
  | .finish _ => []

namespace Construct

/-- What the construct returns, if it is a value method. -/
def results : Construct → List Expr
  | .method (.value _ _ e) => [e]
  | _ => []

def outputStatements (names : StateNames) (c : Construct) : List Stmt :=
  match c with
  | .rule _ => []
  | .method (.action _ _) => [.connect c.ready (.ref c.canFire)]
  | .method (.value _ _ e) =>
    [.connect c.ready (.ref c.canFire), .connect c.result (renamed names e)]

def block (names : StateNames) (c : Construct) : Block :=
  ⟨.wire c.canFire .bit :: .wire c.firing .bit ::
      .connect c.canFire (renamed names c.core.guard) ::
      c.core.body.map (effectStatement names c.firing) ++ c.outputStatements names,
    c.core.updates.map (updateDriver names c.firing)⟩

variable {names : StateNames}

theorem forall_expressions {P : Expr → Prop} {c : Construct} : (∀ e ∈ c.expressions, P e) ↔
    P c.core.guard ∧ (∀ f ∈ c.core.body, ∀ e ∈ f.expressions, P e) ∧
      (∀ u ∈ c.core.updates, P (.leaf (.state u.target)) ∧ P u.value) ∧ ∀ e ∈ c.results, P e := by
  have heq : c.expressions = c.core.guard :: c.core.body.flatMap Effect.expressions ++
      (c.core.updates.flatMap fun u => [.leaf (.state u.target), u.value]) ++ c.results := rfl
  simp only [heq, List.cons_append, List.forall_mem_cons, List.forall_mem_append,
    List.forall_mem_flatMap, List.not_mem_nil, IsEmpty.forall_iff, implies_true, and_true, and_assoc]

theorem lowerEffect_eq_ok {firing : String} {f : Effect} {s : Stmt} :
    lowerEffect names firing f = .ok s ↔
      (∀ e ∈ f.expressions, e.Lowerable) ∧ s = effectStatement names firing f := by
  cases f with
  | display format args =>
    simp only [lowerEffect, bind_eq_ok, pure_eq_ok, mapM_eq_ok fun _ _ => lowerExpr_eq_ok, and_assoc,
      exists_and_left, exists_eq_left, effectStatement, Effect.expressions]
  | finish exitCode => exact pure_eq_ok_of (List.forall_mem_nil _)

theorem lowerUpdate_eq_ok {firing : String} {u : Update} {d : Driver} :
    lowerUpdate names firing u = .ok d ↔ u.value.Lowerable ∧ d = updateDriver names firing u := by
  simp only [lowerUpdate, bind_eq_ok, pure_eq_ok, lowerExpr_eq_ok, and_assoc, exists_and_left,
    exists_eq_left, updateDriver]

theorem lowerOutputs_eq_ok {c : Construct} {ss : List Stmt} : c.lowerOutputs names = .ok ss ↔
    (∀ e ∈ c.results, e.Lowerable) ∧ ss = c.outputStatements names := by
  cases c with
  | rule r => exact pure_eq_ok_of (List.forall_mem_nil _)
  | method m =>
    cases m with
    | action r args => exact pure_eq_ok_of (List.forall_mem_nil _)
    | value r type e =>
      simp only [lowerOutputs, bind_eq_ok, pure_eq_ok, lowerExpr_eq_ok, and_assoc, exists_and_left,
        exists_eq_left, outputStatements, results, List.forall_mem_singleton]

/-- A construct can be lowered if its expressions can. -/
theorem lower_eq_ok {c : Construct} {b : Block} : c.lower names = .ok b ↔
    (∀ e ∈ c.expressions, e.Lowerable) ∧ b = c.block names := by
  have htarget : ∀ s, (Expr.leaf (.state s)).Lowerable :=
    fun s => ⟨rfl, List.forall_mem_singleton.mpr trivial⟩
  simp only [lower, locate_eq_ok, lowerBlock, bind_eq_ok, pure_eq_ok, lowerExpr_eq_ok,
    mapM_eq_ok fun _ _ => lowerEffect_eq_ok, mapM_eq_ok fun _ _ => lowerUpdate_eq_ok,
    lowerOutputs_eq_ok, forall_expressions, htarget, true_and, and_assoc, exists_and_left,
    exists_eq_left, block]

end Construct

/-! The declarations of the state -/

/-- The declaration of an element, if it has one. -/
def declaration (n : State × String) : Stmt := (declareState n.2 n.1).toOption.getD .absent

/-- Whether the circuit language can declare all elements. -/
def StateNames.Native (names : StateNames) : Prop := ∀ n ∈ names, n.1.storage.IsNative

theorem declareState_eq_ok {n : State × String} {s : Stmt} :
    declareState n.2 n.1 = .ok s ↔ n.1.storage.IsNative ∧ s = declaration n := by
  unfold declaration declareState
  cases n.1.storage with
  | register reset => exact pure_eq_ok_of trivial
  | wire => exact pure_eq_ok_of trivial
  | foreign kind => exact error_eq_ok_of id

theorem StateNames.declare_eq_ok {names : StateNames} {ss : List Stmt} :
    names.declare = .ok ss ↔ names.Native ∧ ss = names.map declaration :=
  mapM_eq_ok fun _ _ => declareState_eq_ok

/-! Elaboration -/

namespace Design

/-- The module of a design, given the names of its state elements. -/
def elaborated (d : Design) (names : StateNames) : Module :=
  d.module names (names.map declaration) (d.constructs.map (Construct.block names))

variable {d : Design}

theorem stateNames_eq_ok {names : StateNames} : d.stateNames = .ok names ↔
    ∃ ns, d.reserved = .ok ns ∧ ∃ found, d.discover = .ok found ∧
      names = nameState d.name ns found := by
  simp only [stateNames, bind_eq_ok, pure_eq_ok]

/-- All that an elaboration needs to succeed, and what it gives then. -/
theorem elaborate_eq_ok {circuit : Circuit} : d.elaborate = .ok circuit ↔
    ∃ names, d.stateNames = .ok names ∧ names.Native ∧
      (∀ c ∈ d.constructs, ∀ e ∈ c.expressions, e.Lowerable) ∧
      circuit = ⟨d.name, [d.elaborated names]⟩ ∧ (Node.circuit circuit).check = .ok () := by
  have hunit : ∀ (x : Except Error Unit) (P : Prop), (∃ u, x = .ok u ∧ P) ↔ x = .ok () ∧ P :=
    fun x P => ⟨fun ⟨_, h⟩ => h, fun h => ⟨(), h⟩⟩
  simp only [elaborate, locate_eq_ok, assemble, bind_eq_ok, pure_eq_ok,
    StateNames.declare_eq_ok, mapM_eq_ok fun _ _ => Construct.lower_eq_ok, hunit, and_assoc,
    exists_and_left, exists_eq_left, elaborated]
  constructor
  · rintro ⟨names, hnames, hnative, hlowerable, hcheck, rfl⟩
    exact ⟨names, hnames, hnative, hlowerable, rfl, hcheck⟩
  · rintro ⟨names, hnames, hnative, hlowerable, rfl, hcheck⟩
    exact ⟨names, hnames, hnative, hlowerable, hcheck, rfl⟩

end Design

end GuardedRtl
