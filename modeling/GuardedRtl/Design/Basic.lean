import GuardedRtl.Rtl.Shorthand

/-! Designs of guarded atomic actions: state, rules that fire by themselves, and methods that callers
invoke. All that a rule or method does in a cycle happens at once. -/

namespace GuardedRtl

open Rtl

/-- What a rule does besides updating state, in the cycles in which it fires. -/
inductive Effect where
  | display (format : Text.Bytes) (args : List Expr)
  | finish (exitCode : Int64)
  deriving DecidableEq

structure Update where
  target : State
  value : Expr
  deriving DecidableEq

structure Rule where
  name : String
  guard : Expr
  body : List Effect
  updates : List Update
  deriving DecidableEq

/-- An action is a rule that its caller enables, with arguments. A value method reads the state. -/
inductive Method where
  | action (rule : Rule) (args : List Argument)
  | value (rule : Rule) (type : Ty) (result : Expr)
  deriving DecidableEq

def Method.rule : Method → Rule
  | .action rule _ => rule
  | .value rule _ _ => rule

inductive Construct where
  | rule (r : Rule)
  | method (m : Method)
  deriving DecidableEq

/-- The guard, body and updates that rules and methods have alike. -/
def Construct.core : Construct → Rule
  | .rule r => r
  | .method m => m.rule

def Construct.name (c : Construct) : String := c.core.name

structure Design where
  name : String
  state : List State
  rules : List Rule
  methods : List Method
  deriving DecidableEq

/-- Rules first, then methods, each in the order of their declaration. -/
def Design.constructs (d : Design) : List Construct :=
  d.rules.map .rule ++ d.methods.map .method

end GuardedRtl
