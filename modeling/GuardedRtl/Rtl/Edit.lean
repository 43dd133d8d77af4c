import GuardedRtl.Rtl.Shorthand
import GuardedRtl.Rtl.Transform

/-! Walks over trees that follow tables, and keep the kinds of the nodes that they meet. -/

namespace GuardedRtl.Rtl

/-- The name that a node has in itself, if it has one. -/
def Node.label : Node → String
  | .expr (.ref name) => name
  | .expr (.leaf (.foreign _ name)) => name
  | .field f => f.name
  | .stmt (.register name _ _ _) => name
  | .stmt (.wire name _) => name
  | .port p => p.name
  | .module m => m.name
  | .circuit c => c.name
  | _ => ""

/-- Work that keeps the kinds of the nodes it meets, the last first, also when it fails. -/
abbrev Walk := ExceptT Error (StateM (List String))

/-- What a walk gives, and the kinds it has met in order. -/
def Walk.report {α : Type} (w : Walk α) : Except Error α × List String :=
  let (r, met) := w.run.run []
  (r, met.reverse)

/-- Goes down except below some kinds of nodes, and may fail at a node of some number. -/
def visitExcept (leaves : List String) (failAt : Option Int) (n : Node) : Walk Bool := do
  let met ← getThe (List String)
  if failAt == some (met.length : Int) then throw (.raised ("visitor failed at " ++ n.kind))
  set (n.kind :: met)
  return !leaves.contains n.kind

inductive Edit.Act where
  | keep
  | drop
  | replace (n : Option Node)
  | fail
  | negate
  | rename (suffix : String)

/-- What to do with nodes of a kind, or of any, that have a name, or any. -/
structure Edit where
  kind : String
  name : Option String
  act : Edit.Act

namespace Edit

def applies (e : Edit) (n : Node) : Bool :=
  (e.kind == "*" || e.kind == n.kind) && (e.name.all fun name => name == n.label)

def perform (act : Act) (n : Node) : Walk (Option Node) :=
  match act with
  | .keep => return some n
  | .drop => return none
  | .replace r => return r
  | .fail => throw (.raised ("rewriter failed at " ++ n.kind))
  | .negate => return some (.expr (Expr.not (n.expr?.getD .absent)))
  | .rename suffix => return some (.expr (.ref (n.label ++ suffix)))

/-- Performs the first edit that applies. -/
def performFirst (edits : List Edit) (n : Node) : Walk (Option Node) := do
  modify (n.kind :: ·)
  match edits.find? (·.applies n) with
  | none => return some n
  | some e => perform e.act n

end Edit

end GuardedRtl.Rtl
