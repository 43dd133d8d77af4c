import GuardedRtl.Rtl.Expr
import GuardedRtl.Text.Bytes

/-! Statements, modules and circuits. -/

namespace GuardedRtl.Rtl

/-- A register takes `value` while `enable` is set. -/
structure Reset where
  enable : Expr
  value : Expr
  deriving DecidableEq

inductive Stmt where
  | absent
  | connect (lhs : String) (rhs : Expr)
  | register (name : String) (type : Ty) (clock : Expr) (reset : Option Reset)
  | wire (name : String) (type : Ty)
  | printf (clock condition : Expr) (format : Text.Bytes) (args : List Expr)
  | stop (clock condition : Expr) (exitCode : Int64)
  | foreign (kind : String)
  deriving DecidableEq

/-- Whether the place is filled in. -/
def Stmt.isPresent (s : Stmt) : Bool := s != .absent

structure Port where
  name : String
  type : Ty
  dir : Direction
  deriving DecidableEq

structure Module where
  name : String
  ports : List Port
  statements : List Stmt
  deriving DecidableEq

structure Circuit where
  name : String
  modules : List Module
  deriving DecidableEq

/-- Anything that a circuit is made of. -/
inductive Node where
  | type (t : Ty)
  | field (f : Field)
  | expr (e : Expr)
  | stmt (s : Stmt)
  | reset (r : Reset)
  | port (p : Port)
  | module (m : Module)
  | circuit (c : Circuit)
  deriving DecidableEq

def Ty.kind : Ty → String
  | .absent => "<nil>"
  | .uint _ => "UInt"
  | .sint _ => "SInt"
  | .clock => "Clock"
  | .vector _ _ => "Vector"
  | .bundle _ => "Bundle"
  | .foreign kind => kind

def Leaf.kind : Leaf → String
  | .foreign kind _ => kind
  | .state _ => "State"
  | .argument _ => "Argument"
  | .unboundArgument => "Argument"

def Expr.kind : Expr → String
  | .absent => "<nil>"
  | .ref _ => "Ref"
  | .literal _ _ => "Literal"
  | .mux _ _ _ => "Mux"
  | .validIf _ _ => "ValidIf"
  | .binary _ _ _ => "BinOp"
  | .compare _ _ _ => "Cmp"
  | .unary _ _ => "UnOp"
  | .pad _ _ => "Pad"
  | .shiftLeft _ _ _ => "ShiftLeft"
  | .shiftRight _ _ _ => "ShiftRight"
  | .bits _ _ _ => "Extract"
  | .head _ _ => "Head"
  | .tail _ _ => "Tail"
  | .leaf l => l.kind

def Stmt.kind : Stmt → String
  | .absent => "<nil>"
  | .connect _ _ => "Connect"
  | .register _ _ _ _ => "Register"
  | .wire _ _ => "WireDeclaration"
  | .printf _ _ _ _ => "PrintF"
  | .stop _ _ _ => "Stop"
  | .foreign kind => kind

/-- The kind of a node, as messages name it. -/
def Node.kind : Node → String
  | .type t => t.kind
  | .field _ => "Field"
  | .expr e => e.kind
  | .stmt s => s.kind
  | .reset _ => "Reset"
  | .port _ => "Port"
  | .module _ => "Module"
  | .circuit _ => "Circuit"

/-- The kind of what stands in a place. -/
def placeKind : Option Node → String
  | none => "<nil>"
  | some n => n.kind

/-- Whether the node is of a kind that the circuit language has. -/
def Node.isKnown : Node → Bool
  | .type (.foreign _) => false
  | .expr (.leaf _) => false
  | .stmt (.foreign _) => false
  | _ => true

def Node.type? : Node → Option Ty
  | .type t => some t
  | _ => none

def Node.field? : Node → Option Field
  | .field f => some f
  | _ => none

def Node.expr? : Node → Option Expr
  | .expr e => some e
  | _ => none

/-- The name of a reference. -/
def Node.ref? : Node → Option String
  | .expr (.ref name) => some name
  | _ => none

def Node.stmt? : Node → Option Stmt
  | .stmt s => some s
  | _ => none

def Node.reset? : Node → Option Reset
  | .reset r => some r
  | _ => none

def Node.port? : Node → Option Port
  | .port p => some p
  | _ => none

def Node.module? : Node → Option Module
  | .module m => some m
  | _ => none

def Node.circuit? : Node → Option Circuit
  | .circuit c => some c
  | _ => none

end GuardedRtl.Rtl
