import GuardedRtl.Rtl.Check

/-! Evaluation of expressions over unsigned values of at most 64 bits. Bits and widths are machine
words, and their arithmetic wraps around. -/

namespace GuardedRtl.Rtl

/-- An unsigned number of `width` bits. -/
structure Value where
  bits : UInt64
  width : Int64
  deriving DecidableEq

def Value.ofBool (b : Bool) : Value := ⟨if b then 1 else 0, 1⟩

def Value.isSet (v : Value) : Bool := v.bits != 0

/-- The values of the names that an expression may refer to. -/
abbrev Env := String → Option Value

def Env.empty : Env := fun _ => none

def Env.bind (env : Env) (name : String) (v : Value) : Env :=
  fun x => if x = name then some v else env x

/-- `x` moved up; nothing of it is left after 64 places. -/
def shiftUp (x n : UInt64) : UInt64 := if n < 64 then x <<< n else 0

/-- `x` moved down; nothing of it is left after 64 places. -/
def shiftDown (x n : UInt64) : UInt64 := if n < 64 then x >>> n else 0

/-- The word whose low `width` bits are set. -/
def mask (width : Int64) : UInt64 :=
  if 64 ≤ width then 0xffffffffffffffff else shiftUp 1 width.toUInt64 - 1

def fail (fault : Fault) : Except Error Value := .error (.evaluation fault)

/-- The low `width` bits of a result. -/
def widen (bits : UInt64) (width : Int64) : Except Error Value :=
  if 64 < width then fail (.resultTooWide width) else .ok ⟨bits &&& mask width, width⟩

def evalLiteral (value : Int64) : Ty → Except Error Value
  | .uint width =>
    let bits := value.toUInt64
    widen bits (if width = 0 then max (Int64.ofNat (bitLength bits)) 1 else width)
  | t => fail (.literalType t.kind)

def evalBinary (op : BinaryOp) (a b : Value) : Except Error Value :=
  let width := max a.width b.width
  match op with
  | .add => widen (a.bits + b.bits) (width + 1)
  | .sub => widen (a.bits - b.bits) (width + 1)
  | .mul => widen (a.bits * b.bits) (a.width + b.width)
  | .div => .ok ⟨if b.bits = 0 then 0 else a.bits / b.bits, a.width⟩
  | .rem => .ok ⟨if b.bits = 0 then 0 else a.bits % b.bits, min a.width b.width⟩
  | .and => .ok ⟨a.bits &&& b.bits, width⟩
  | .or => .ok ⟨a.bits ||| b.bits, width⟩
  | .xor => .ok ⟨a.bits ^^^ b.bits, width⟩
  | .cat =>
    if 64 < a.width + b.width then fail (.resultTooWide (a.width + b.width))
    else .ok ⟨shiftUp a.bits b.width.toUInt64 ||| b.bits, a.width + b.width⟩
  | .unknown _ => fail (.unknownOperator op)

def evalCompare (op : CompareOp) (a b : Value) : Except Error Value :=
  match op with
  | .eq => .ok (.ofBool (a.bits == b.bits))
  | .ne => .ok (.ofBool (a.bits != b.bits))
  | .lt => .ok (.ofBool (a.bits < b.bits))
  | .gt => .ok (.ofBool (b.bits < a.bits))
  | .le => .ok (.ofBool (a.bits ≤ b.bits))
  | .ge => .ok (.ofBool (b.bits ≤ a.bits))
  | .unknown _ => .error (.unhandled .eval "Cmp")

def evalUnary (op : UnaryOp) (a : Value) : Except Error Value :=
  match op with
  | .asUInt => .ok a
  | .asClock => .ok a
  | .not => .ok ⟨~~~a.bits &&& mask a.width, a.width⟩
  | _ => fail (.signedOperation op)

def evalShiftLeft (a n : Value) : Except Error Value :=
  if 7 ≤ n.width then fail (.shiftTooWide n.width)
  else widen (shiftUp a.bits n.bits) (a.width + (shiftUp 1 n.width.toUInt64).toInt64 - 1)

def evalBits (a : Value) (hi lo : Int64) : Except Error Value :=
  if a.width ≤ hi then .error (.invalid "Extract" (.bitOutOfRange hi a.width))
  else
    let width := hi - lo + 1
    .ok ⟨shiftDown a.bits lo.toUInt64 &&& mask width, width⟩

def evalHead (a : Value) (count : Int64) : Except Error Value :=
  if a.width < count then .error (.invalid "Head" (.headOutOfRange count a.width))
  else .ok ⟨shiftDown a.bits (a.width - count).toUInt64, count⟩

def evalTail (a : Value) (count : Int64) : Except Error Value :=
  if a.width < count then .error (.invalid "Tail" (.tailOutOfRange count a.width))
  else .ok ⟨a.bits &&& mask (a.width - count), a.width - count⟩

/-- The value of an expression, whose bits may exceed its width. -/
def Expr.value (env : Env) : Expr → Except Error Value
  | .absent => .error (.unhandled .eval "<nil>")
  | .ref name =>
    match env name with
    | some v => .ok v
    | none => fail (.unknownReference name)
  | .literal value type => evalLiteral value type
  | .mux sel a b => do
    let s ← sel.value env
    let x ← a.value env
    let y ← b.value env
    pure ⟨if s.isSet then x.bits else y.bits, max x.width y.width⟩
  | .validIf valid a => do
    let v ← valid.value env
    let x ← a.value env
    pure ⟨if v.isSet then x.bits else 0, x.width⟩
  | .binary op a b => do
    let x ← a.value env
    let y ← b.value env
    evalBinary op x y
  | .compare op a b => do
    let x ← a.value env
    let y ← b.value env
    evalCompare op x y
  | .unary op e => do
    let x ← e.value env
    evalUnary op x
  | .pad e width => do
    let x ← e.value env
    widen x.bits (max x.width width)
  | .shiftLeft e places amount => do
    let x ← e.value env
    if amount.isPresent then
      let n ← amount.value env
      evalShiftLeft x n
    else widen (shiftUp x.bits places.toUInt64) (x.width + places)
  | .shiftRight e places amount => do
    let x ← e.value env
    if amount.isPresent then
      let n ← amount.value env
      pure ⟨shiftDown x.bits n.bits, x.width⟩
    else pure ⟨shiftDown x.bits places.toUInt64, max (x.width - places) 1⟩
  | .bits e hi lo => do
    let x ← e.value env
    evalBits x hi lo
  | .head e count => do
    let x ← e.value env
    evalHead x count
  | .tail e count => do
    let x ← e.value env
    evalTail x count
  | .leaf l => .error (.unhandled .eval l.kind)

/-- The value of a well-formed expression, cut to its width. -/
def Expr.eval (e : Expr) (env : Env) : Except Error Value := do
  (Node.expr e).check
  let v ← e.value env
  pure { v with bits := v.bits &&& mask v.width }

end GuardedRtl.Rtl
