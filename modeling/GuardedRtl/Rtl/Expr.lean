import GuardedRtl.Rtl.Operator
import GuardedRtl.Rtl.Type

/-! Expressions. Besides the operations of the circuit language an expression may hold leaves that
stand for something outside it: state elements and method arguments, which elaboration replaces by
references, and `foreign` leaves, which nothing replaces. -/

namespace GuardedRtl.Rtl

/-- A register keeps its value between cycles and may have a reset value. A wire has a value only in
the cycles that update it. A design may hold and update an element of a `foreign` kind, but no circuit
declares one. -/
inductive Storage where
  | register (reset : Option Int64)
  | wire
  | foreign (kind : String)
  deriving DecidableEq

/-- A state element. Elements made apart differ in `id`, whatever their hints and types. -/
structure State where
  id : Nat
  storage : Storage
  hint : String
  type : Ty
  deriving DecidableEq

/-- An argument of the method `method` of the design numbered `design`. -/
structure Argument where
  design : Nat
  method : String
  name : String
  type : Ty
  deriving DecidableEq

/-- The input port that carries the argument. -/
def Argument.port (a : Argument) : String := a.method ++ "_" ++ a.name

/-- `unboundArgument` is what asking for an argument that a method does not have gives. -/
inductive Leaf where
  | foreign (kind name : String)
  | state (s : State)
  | argument (a : Argument)
  | unboundArgument
  deriving DecidableEq

/-- `absent` is an operand not filled in. A shift is static, by `places`, while `amount` is absent,
and dynamic, by the value of `amount`, otherwise. -/
inductive Expr where
  | absent
  | ref (name : String)
  | literal (value : Int64) (type : Ty)
  | mux (sel a b : Expr)
  | validIf (valid a : Expr)
  | binary (op : BinaryOp) (a b : Expr)
  | compare (op : CompareOp) (a b : Expr)
  | unary (op : UnaryOp) (e : Expr)
  | pad (e : Expr) (width : Int64)
  | shiftLeft (e : Expr) (places : Int64) (amount : Expr)
  | shiftRight (e : Expr) (places : Int64) (amount : Expr)
  | bits (e : Expr) (hi lo : Int64)
  | head (e : Expr) (count : Int64)
  | tail (e : Expr) (count : Int64)
  | leaf (l : Leaf)
  deriving DecidableEq

instance : Inhabited Expr := ⟨.absent⟩

/-- Whether the operand is filled in. -/
def Expr.isPresent (e : Expr) : Bool := e != .absent

end GuardedRtl.Rtl
