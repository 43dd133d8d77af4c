import GuardedRtl.Rtl.Tree

/-! Well-formed circuits. `Node.checkSelf` looks at one node, `Node.check` at every node of a tree in
pre-order, and the first complaint is the answer. -/

namespace GuardedRtl.Rtl

/-- The least number of bits that hold `n`. -/
def bitLength (n : UInt64) : Nat := if n = 0 then 0 else n.toNat.log2 + 1

/-- Complains about the first operand that is not filled in. -/
def requireOperands (kind : String) : List (String × Expr) → Except Error Unit
  | [] => .ok ()
  | (field, e) :: rest =>
    if e.isPresent then requireOperands kind rest else .error (missing kind field)

def requireName (kind name : String) : Except Error Unit :=
  if name = "" then .error (missing kind "Name") else .ok ()

def requireType (kind : String) (t : Ty) : Except Error Unit :=
  if t.isPresent then .ok () else .error (missing kind "Type")

def checkWidth (kind : String) (width : Int64) : Except Error Unit :=
  if width < 0 then .error (.invalid kind (.negativeWidth width)) else .ok ()

def checkCounted (kind : String) (e : Expr) (n : Int64) : Except Error Unit :=
  if !e.isPresent then .error (missing kind "E")
  else if n < 0 then .error (.invalid kind (.negativeArgument n))
  else .ok ()

def checkShift (kind : String) (e : Expr) (places : Int64) (amount : Expr) : Except Error Unit :=
  if amount.isPresent && places != 0 then .error (mismatch kind "N")
  else checkCounted kind e places

/-- The first name that stood earlier in the list. -/
def firstRepeated : List String → List String → Option String
  | _, [] => none
  | seen, name :: rest =>
    if name ∈ seen then some name else firstRepeated (name :: seen) rest

/-- Whether `value` has a representation of `width` bits without a sign. -/
def fitsUnsigned (value width : Int64) : Bool :=
  !(0 < width && width < 64 && decide (width.toInt < bitLength value.toUInt64))

/-- The least power of two that is out of range for `width` bits with a sign. -/
def signedLimit (width : Int64) : Int64 := 1 <<< (width - 1)

/-- Whether `value` has a representation of `width` bits with a sign. -/
def fitsSigned (value width : Int64) : Bool :=
  !(0 < width && width < 64) || (-signedLimit width ≤ value && value < signedLimit width)

def checkLiteral (value : Int64) : Ty → Except Error Unit
  | .absent => .error (missing "Literal" "Type")
  | .uint width =>
    if value < 0 then .error (.invalid "Literal" (.negativeUnsigned value))
    else if fitsUnsigned value width then .ok ()
    else .error (.invalid "Literal" (.literalTooWide value width))
  | .sint width =>
    if fitsSigned value width then .ok ()
    else .error (.invalid "Literal" (.literalTooWide value width))
  | _ => .error (mismatch "Literal" "Type")

def Ty.checkSelf : Ty → Except Error Unit
  | .absent => .ok ()
  | .uint width => checkWidth "UInt" width
  | .sint width => checkWidth "SInt" width
  | .clock => .ok ()
  | .vector elem count =>
    if !elem.isPresent then .error (missing "Vector" "Elem")
    else if count < 0 then .error (.invalid "Vector" (.negativeCount count))
    else .ok ()
  | .bundle fields =>
    match firstRepeated [] (fields.map Field.name) with
    | some name => .error (.construction "Bundle" name .duplicateName)
    | none => .ok ()
  | .foreign kind => .error (.unhandled .check kind)

def Expr.checkSelf : Expr → Except Error Unit
  | .absent => .ok ()
  | .ref name => requireName "Ref" name
  | .literal value type => checkLiteral value type
  | .mux sel a b => requireOperands "Mux" [("Sel", sel), ("A", a), ("B", b)]
  | .validIf valid a => requireOperands "ValidIf" [("Valid", valid), ("A", a)]
  | .binary op a b =>
    if op.isKnown then requireOperands "BinOp" [("E1", a), ("E2", b)]
    else .error (mismatch "BinOp" "Op")
  | .compare op a b =>
    if op.isKnown then requireOperands "Cmp" [("E1", a), ("E2", b)]
    else .error (mismatch "Cmp" "Op")
  | .unary op e =>
    if op.isKnown then requireOperands "UnOp" [("E", e)] else .error (mismatch "UnOp" "Op")
  | .pad e width => checkCounted "Pad" e width
  | .shiftLeft e places amount => checkShift "ShiftLeft" e places amount
  | .shiftRight e places amount => checkShift "ShiftRight" e places amount
  | .bits e hi lo =>
    if !e.isPresent then .error (missing "Extract" "E")
    else if lo < 0 then .error (.invalid "Extract" (.negativeLowBit lo))
    else if hi < lo then .error (.invalid "Extract" (.bitsReversed hi lo))
    else .ok ()
  | .head e count => checkCounted "Head" e count
  | .tail e count => checkCounted "Tail" e count
  | .leaf l => .error (.unhandled .check l.kind)

def Stmt.checkSelf : Stmt → Except Error Unit
  | .absent => .ok ()
  | .connect lhs rhs =>
    if lhs = "" then .error (missing "Connect" "Lhs")
    else requireOperands "Connect" [("Rhs", rhs)]
  | .register name type clock _ => do
    requireName "Register" name
    requireType "Register" type
    requireOperands "Register" [("Clock", clock)]
  | .wire name type => do
    requireName "WireDeclaration" name
    requireType "WireDeclaration" type
  | .printf clock condition _ args =>
    if args.all Expr.isPresent then
      requireOperands "PrintF" [("Clock", clock), ("Condition", condition)]
    else .error (missing "PrintF" "Args")
  | .stop clock condition _ =>
    requireOperands "Stop" [("Clock", clock), ("Condition", condition)]
  | .foreign kind => .error (.unhandled .check kind)

/-- Whether a node is well formed as far as its own fields tell. -/
def Node.checkSelf : Node → Except Error Unit
  | .type t => t.checkSelf
  | .field f => do
    requireName "Field" f.name
    requireType "Field" f.type
  | .expr e => e.checkSelf
  | .stmt s => s.checkSelf
  | .reset r => requireOperands "Reset" [("Enable", r.enable), ("Value", r.value)]
  | .port p => do
    requireName "Port" p.name
    requireType "Port" p.type
    if p.dir.isKnown then .ok () else .error (mismatch "Port" "Dir")
  | .module m => do
    requireName "Module" m.name
    if m.statements.all Stmt.isPresent then .ok () else .error (missing "Module" "Statements")
  | .circuit c => requireName "Circuit" c.name

/-- Whether every node of the tree is well formed. -/
def Node.check (n : Node) : Except Error Unit :=
  n.visit fun n => do
    n.checkSelf
    pure true

end GuardedRtl.Rtl
