/-! Operators and port directions. Each is numbered; a number that names none of them is kept as
`unknown`, and no circuit may use it. -/

namespace GuardedRtl.Rtl

inductive BinaryOp where
  | add | sub | mul | div | rem | and | or | xor | cat
  | unknown (code : Int64)
  deriving DecidableEq

inductive CompareOp where
  | eq | ne | lt | gt | le | ge
  | unknown (code : Int64)
  deriving DecidableEq

inductive UnaryOp where
  | asUInt | asSInt | asClock | toSigned | neg | not
  | unknown (code : Int64)
  deriving DecidableEq

inductive Direction where
  | input | output
  | unknown (code : Int64)
  deriving DecidableEq

def decimal (n : Int64) : String := toString n.toInt

/-- The name of a number that names nothing. -/
def unnamed (family : String) (code : Int64) : String := family ++ "(" ++ decimal code ++ ")"

def BinaryOp.ofCode (code : Int64) : BinaryOp :=
  match code.toInt with
  | 0 => .add | 1 => .sub | 2 => .mul | 3 => .div | 4 => .rem
  | 5 => .and | 6 => .or | 7 => .xor | 8 => .cat
  | _ => .unknown code

def BinaryOp.name : BinaryOp → String
  | .add => "Add" | .sub => "Sub" | .mul => "Mul" | .div => "Div" | .rem => "Rem"
  | .and => "And" | .or => "Or" | .xor => "Xor" | .cat => "Cat"
  | .unknown code => unnamed "BinaryOp" code

/-- The spelling in circuit text. -/
def BinaryOp.keyword : BinaryOp → String
  | .add => "add" | .sub => "sub" | .mul => "mul" | .div => "div" | .rem => "rem"
  | .and => "and" | .or => "or" | .xor => "xor" | .cat => "cat"
  | .unknown code => unnamed "binaryop" code

def BinaryOp.isKnown : BinaryOp → Bool
  | .unknown _ => false
  | _ => true

def CompareOp.ofCode (code : Int64) : CompareOp :=
  match code.toInt with
  | 0 => .eq | 1 => .ne | 2 => .lt | 3 => .gt | 4 => .le | 5 => .ge
  | _ => .unknown code

def CompareOp.name : CompareOp → String
  | .eq => "EQ" | .ne => "NE" | .lt => "LT" | .gt => "GT" | .le => "LE" | .ge => "GE"
  | .unknown code => unnamed "CmpOp" code

/-- The spelling in circuit text. -/
def CompareOp.keyword : CompareOp → String
  | .eq => "eq" | .ne => "neq" | .lt => "lt" | .gt => "gt" | .le => "leq" | .ge => "geq"
  | .unknown code => unnamed "cmpop" code

def CompareOp.isKnown : CompareOp → Bool
  | .unknown _ => false
  | _ => true

def UnaryOp.ofCode (code : Int64) : UnaryOp :=
  match code.toInt with
  | 0 => .asUInt | 1 => .asSInt | 2 => .asClock | 3 => .toSigned | 4 => .neg | 5 => .not
  | _ => .unknown code

def UnaryOp.name : UnaryOp → String
  | .asUInt => "AsUInt" | .asSInt => "AsSInt" | .asClock => "AsClock"
  | .toSigned => "ArithmeticToSigned" | .neg => "Neg" | .not => "Not"
  | .unknown code => unnamed "UnaryOp" code

/-- The spelling in circuit text. -/
def UnaryOp.keyword : UnaryOp → String
  | .asUInt => "asUInt" | .asSInt => "asSInt" | .asClock => "asClock"
  | .toSigned => "cvt" | .neg => "neg" | .not => "not"
  | .unknown code => unnamed "unaryOp" code

def UnaryOp.isKnown : UnaryOp → Bool
  | .unknown _ => false
  | _ => true

def Direction.ofCode (code : Int64) : Direction :=
  match code.toInt with
  | 0 => .input | 1 => .output
  | _ => .unknown code

def Direction.name : Direction → String
  | .input => "Input" | .output => "Output"
  | .unknown code => unnamed "Direction" code

/-- The spelling in circuit text. -/
def Direction.keyword : Direction → String
  | .input => "input" | .output => "output"
  | .unknown code => unnamed "direction" code

def Direction.isKnown : Direction → Bool
  | .unknown _ => false
  | _ => true

end GuardedRtl.Rtl
