import GuardedRtl.Design.Basic
import GuardedRtl.Rtl.Tree

/-! A rule or method under construction. A call that is refused changes nothing but the record of the
first error, which every later attempt to finish the draft reports again. -/

namespace GuardedRtl

open Rtl

/-- What a draft is to become. The result of a value method is not known at first. -/
inductive Role where
  | rule
  | action (args : List Argument)
  | value (type : Ty) (result : Option Expr)
  deriving DecidableEq

/-- The guard is the conjunction of what was given; without any it is true. -/
structure Draft where
  name : String
  role : Role
  guard : Option Expr := none
  body : List Effect := []
  updates : List Update := []
  built : Bool := false
  error : Option Error := none

/-- Work on a draft. What it changes stays changed when it fails. -/
abbrev Drafting := ExceptT Error (StateM Draft)

namespace Draft

def args (d : Draft) : List Argument :=
  match d.role with
  | .action args => args
  | _ => []

def problem (d : Draft) (field : String) (reason : Reason) : Error :=
  .construction d.name field reason

/-- Keeps the first error. -/
def recordError (e : Error) (d : Draft) : Draft := { d with error := d.error <|> some e }

/-- Fails, and keeps the error. -/
def refuse {α : Type} (e : Error) : Drafting α := do
  modify (recordError e)
  throw e

/-- Fails, and leaves the draft as it is. -/
def reject {α : Type} (field : String) (reason : Reason) : Drafting α := do
  throw ((← getThe Draft).problem field reason)

/-- Whether the draft may use `n`, and whether to look below it. -/
def admits (d : Draft) (field : String) : Node → Except Error Bool
  | .expr (.leaf (.state _)) => .ok false
  | .expr (.leaf .unboundArgument) => .error (d.problem field .missingField)
  | .expr (.leaf (.argument a)) =>
    if a ∈ d.args then .ok false else .error (d.problem a.port .outOfScope)
  | _ => .ok true

/-- Whether the draft may use `e`: it has to be there, and the arguments in it are the draft's own. -/
def checkExpr (d : Draft) (field : String) (e : Expr) : Except Error Unit :=
  if e.isPresent then (Node.expr e).visit (d.admits field)
  else .error (d.problem field .missingField)

def requireOpen (field : String) : Drafting Unit := do
  if (← getThe Draft).built then reject field .frozen

def requireExpr (field : String) (e : Expr) : Drafting Unit := do
  match (← getThe Draft).checkExpr field e with
  | .ok () => pure ()
  | .error e => refuse e

/-- Value methods neither update state nor end the simulation. -/
def requireRule : Drafting Unit := do
  match (← getThe Draft).role with
  | .value _ _ => reject "kind" .typeMismatch
  | _ => pure ()

/-- Adds a conjunct to the guard. -/
def addGuard (e : Expr) : Drafting Unit := do
  requireOpen "guard"
  requireExpr "guard" e
  modify fun d => { d with guard := some (match d.guard with | some g => .and g e | none => e) }

/-- Gives the target a new value when the rule fires; a rule does so once for each target. -/
def addUpdate (target : Option State) (value : Expr) : Drafting Unit := do
  requireRule
  requireOpen "update"
  let d ← getThe Draft
  match target with
  | none => refuse (d.problem "target" .missingField)
  | some s =>
    if s ∈ d.updates.map Update.target then refuse (d.problem s.hint .doubleUpdate)
    else
      requireExpr "value" value
      modify fun d => { d with updates := d.updates ++ [⟨s, value⟩] }

def requireExprs (field : String) : List Expr → Drafting Unit
  | [] => pure ()
  | e :: rest => do
    requireExpr field e
    requireExprs field rest

def addDisplay (format : Text.Bytes) (args : List Expr) : Drafting Unit := do
  requireOpen "display"
  requireExprs "args" args
  modify fun d => { d with body := d.body ++ [.display format args] }

/-- Ends the simulation with the given exit code when the rule fires. -/
def addFinish (exitCode : Int64) : Drafting Unit := do
  requireRule
  requireOpen "finish"
  modify fun d => { d with body := d.body ++ [.finish exitCode] }

/-- The argument of the given name. Asking for one that there is not is an error of the draft. -/
def argument (name : String) : Drafting Leaf := do
  let d ← getThe Draft
  match d.args.find? fun a => a.name = name with
  | some a => pure (.argument a)
  | none =>
    modify (recordError (d.problem name .unknownField))
    pure .unboundArgument

/-- Sets the result of a value method, once. -/
def setResult (e : Expr) : Drafting Unit := do
  requireOpen "ret"
  let d ← getThe Draft
  match d.role with
  | .value type none =>
    requireExpr "ret" e
    modify fun d => { d with role := .value type (some e) }
  | .value _ (some _) => refuse (d.problem "ret" .doubleReturn)
  | _ => reject "kind" .typeMismatch

/-- The rule as it stands. -/
def toRule (d : Draft) : Rule := ⟨d.name, d.guard.getD .one, d.body, d.updates⟩

/-- The rule or method as it stands; a value method needs its result for that. -/
def toConstruct? (d : Draft) : Option Construct :=
  match d.role with
  | .rule => some (.rule d.toRule)
  | .action args => some (.method (.action d.toRule args))
  | .value type result => result.map fun e => .method (.value d.toRule type e)

/-- Closes the draft, which is possible once and not after an error. -/
def freeze : Drafting Construct := do
  let d ← getThe Draft
  if d.built then reject "" .frozen
  else match d.error with
    | some e => throw e
    | none =>
      match d.toConstruct? with
      | some c =>
        set { d with built := true }
        pure c
      | none => refuse (d.problem "ret" .missingReturn)

/-- Finishes the draft. A value method without result is an error of the draft. -/
def finish : Drafting Construct := do
  let d ← getThe Draft
  match d.role with
  | .value _ none =>
    if !d.built then modify (recordError (d.problem "ret" .missingReturn))
  | _ => pure ()
  freeze

/-- Finishes the draft of a rule; a method is not finished as one. -/
def finishRule : Drafting Construct := do
  match (← getThe Draft).role with
  | .rule => freeze
  | _ => reject "kind" .typeMismatch

/-- The finished rule or method. -/
def built? (d : Draft) : Option Construct := if d.built then d.toConstruct? else none

/-- The names that the rule or method will have in a circuit, without its own name before them. -/
def suffixes (d : Draft) : List String :=
  "can_fire" :: "firing" ::
    match d.role with
    | .rule => []
    | .action args => "enable" :: "ready" :: args.map Argument.name
    | .value _ _ => ["ready", "value"]

def identifiers (d : Draft) : List String := d.suffixes.map fun s => d.name ++ "_" ++ s

end Draft

end GuardedRtl
