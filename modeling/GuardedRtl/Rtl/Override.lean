import GuardedRtl.Rtl.Check

/-! A node with some of its fields replaced. Fields are named, and a field takes the values of its
own sort only; a field that is a place for a part, or a list, can also be cleared. -/

namespace GuardedRtl.Rtl

/-- A value for a field. Widths, counts and positions are `number`s; the value of a literal is a
`constant`. Names and formats are both given as `text`. -/
inductive FieldValue where
  | nothing
  | node (n : Node)
  | number (n : Int64)
  | constant (v : Int64)
  | text (bs : Text.Bytes)
  | flag (b : Bool)
  | binaryOp (op : BinaryOp)
  | compareOp (op : CompareOp)
  | unaryOp (op : UnaryOp)
  | direction (d : Direction)
  | reset (r : Option Reset)
  | exprs (es : List Expr)
  | refs (names : List String)
  | stmts (ss : List Stmt)
  | fields (fs : List Field)
  | ports (ps : List Port)
  | modules (ms : List Module)

namespace FieldValue

def type? : FieldValue → Option Ty
  | .nothing => some .absent
  | .node n => n.type?
  | _ => none

def expr? : FieldValue → Option Expr
  | .nothing => some .absent
  | .node n => n.expr?
  | _ => none

def ref? : FieldValue → Option String
  | .node n => n.ref?
  | _ => none

def number? : FieldValue → Option Int64
  | .number n => some n
  | _ => none

def constant? : FieldValue → Option Int64
  | .constant v => some v
  | _ => none

def text? : FieldValue → Option Text.Bytes
  | .text bs => some bs
  | _ => none

def name? (v : FieldValue) : Option String := v.text?.map Text.decode

def binaryOp? : FieldValue → Option BinaryOp
  | .binaryOp op => some op
  | _ => none

def compareOp? : FieldValue → Option CompareOp
  | .compareOp op => some op
  | _ => none

def unaryOp? : FieldValue → Option UnaryOp
  | .unaryOp op => some op
  | _ => none

def direction? : FieldValue → Option Direction
  | .direction d => some d
  | _ => none

def reset? : FieldValue → Option (Option Reset)
  | .nothing => some none
  | .reset r => some r
  | _ => none

def exprs? : FieldValue → Option (List Expr)
  | .nothing => some []
  | .exprs es => some es
  | _ => none

def stmts? : FieldValue → Option (List Stmt)
  | .nothing => some []
  | .stmts ss => some ss
  | _ => none

def fields? : FieldValue → Option (List Field)
  | .nothing => some []
  | .fields fs => some fs
  | _ => none

def ports? : FieldValue → Option (List Port)
  | .nothing => some []
  | .ports ps => some ps
  | _ => none

def modules? : FieldValue → Option (List Module)
  | .nothing => some []
  | .modules ms => some ms
  | _ => none

end FieldValue

/-- What filling a field makes of a node, for the values that the field takes. -/
abbrev Slot := FieldValue → Option Node

def Ty.slot? : Ty → String → Option Slot
  | .uint _, "Width" => some fun v => return .type (.uint (← v.number?))
  | .sint _, "Width" => some fun v => return .type (.sint (← v.number?))
  | .vector _ n, "Elem" => some fun v => return .type (.vector (← v.type?) n)
  | .vector t _, "Count" => some fun v => return .type (.vector t (← v.number?))
  | .bundle _, "Fields" => some fun v => return .type (.bundle (← v.fields?))
  | _, _ => none

def Expr.slot? : Expr → String → Option Slot
  | .ref _, "Name" => some fun v => return .expr (.ref (← v.name?))
  | .literal _ t, "Value" => some fun v => return .expr (.literal (← v.constant?) t)
  | .literal c _, "Type" => some fun v => return .expr (.literal c (← v.type?))
  | .mux _ a b, "Sel" => some fun v => return .expr (.mux (← v.expr?) a b)
  | .mux s _ b, "A" => some fun v => return .expr (.mux s (← v.expr?) b)
  | .mux s a _, "B" => some fun v => return .expr (.mux s a (← v.expr?))
  | .validIf _ a, "Valid" => some fun v => return .expr (.validIf (← v.expr?) a)
  | .validIf c _, "A" => some fun v => return .expr (.validIf c (← v.expr?))
  | .binary _ a b, "Op" => some fun v => return .expr (.binary (← v.binaryOp?) a b)
  | .binary op _ b, "E1" => some fun v => return .expr (.binary op (← v.expr?) b)
  | .binary op a _, "E2" => some fun v => return .expr (.binary op a (← v.expr?))
  | .compare _ a b, "Op" => some fun v => return .expr (.compare (← v.compareOp?) a b)
  | .compare op _ b, "E1" => some fun v => return .expr (.compare op (← v.expr?) b)
  | .compare op a _, "E2" => some fun v => return .expr (.compare op a (← v.expr?))
  | .unary _ e, "Op" => some fun v => return .expr (.unary (← v.unaryOp?) e)
  | .unary op _, "E" => some fun v => return .expr (.unary op (← v.expr?))
  | .pad _ n, "E" => some fun v => return .expr (.pad (← v.expr?) n)
  | .pad e _, "N" => some fun v => return .expr (.pad e (← v.number?))
  | .shiftLeft _ n a, "E" => some fun v => return .expr (.shiftLeft (← v.expr?) n a)
  | .shiftLeft e _ a, "N" => some fun v => return .expr (.shiftLeft e (← v.number?) a)
  | .shiftLeft e n _, "By" => some fun v => return .expr (.shiftLeft e n (← v.expr?))
  | .shiftRight _ n a, "E" => some fun v => return .expr (.shiftRight (← v.expr?) n a)
  | .shiftRight e _ a, "N" => some fun v => return .expr (.shiftRight e (← v.number?) a)
  | .shiftRight e n _, "By" => some fun v => return .expr (.shiftRight e n (← v.expr?))
  | .bits _ hi lo, "E" => some fun v => return .expr (.bits (← v.expr?) hi lo)
  | .bits e _ lo, "Hi" => some fun v => return .expr (.bits e (← v.number?) lo)
  | .bits e hi _, "Lo" => some fun v => return .expr (.bits e hi (← v.number?))
  | .head _ n, "E" => some fun v => return .expr (.head (← v.expr?) n)
  | .head e _, "N" => some fun v => return .expr (.head e (← v.number?))
  | .tail _ n, "E" => some fun v => return .expr (.tail (← v.expr?) n)
  | .tail e _, "N" => some fun v => return .expr (.tail e (← v.number?))
  | _, _ => none

def Stmt.slot? : Stmt → String → Option Slot
  | .connect _ e, "Lhs" => some fun v => return .stmt (.connect (← v.ref?) e)
  | .connect x _, "Rhs" => some fun v => return .stmt (.connect x (← v.expr?))
  | .register _ t c r, "Name" => some fun v => return .stmt (.register (← v.name?) t c r)
  | .register x _ c r, "Type" => some fun v => return .stmt (.register x (← v.type?) c r)
  | .register x t _ r, "Clock" => some fun v => return .stmt (.register x t (← v.expr?) r)
  | .register x t c _, "Reset" => some fun v => return .stmt (.register x t c (← v.reset?))
  | .wire _ t, "Name" => some fun v => return .stmt (.wire (← v.name?) t)
  | .wire x _, "Type" => some fun v => return .stmt (.wire x (← v.type?))
  | .printf _ c s as, "Clock" => some fun v => return .stmt (.printf (← v.expr?) c s as)
  | .printf k _ s as, "Condition" => some fun v => return .stmt (.printf k (← v.expr?) s as)
  | .printf k c _ as, "Format" => some fun v => return .stmt (.printf k c (← v.text?) as)
  | .printf k c s _, "Args" => some fun v => return .stmt (.printf k c s (← v.exprs?))
  | .stop _ c n, "Clock" => some fun v => return .stmt (.stop (← v.expr?) c n)
  | .stop k _ n, "Condition" => some fun v => return .stmt (.stop k (← v.expr?) n)
  | .stop k c _, "ExitCode" => some fun v => return .stmt (.stop k c (← v.number?))
  | _, _ => none

/-- The field of a node that has the given name. -/
def Node.slot? : Node → String → Option Slot
  | .type t, name => t.slot? name
  | .field f, "Name" => some fun v => return .field { f with name := ← v.name? }
  | .field f, "Type" => some fun v => return .field { f with type := ← v.type? }
  | .expr e, name => e.slot? name
  | .stmt s, name => s.slot? name
  | .reset r, "Enable" => some fun v => return .reset { r with enable := ← v.expr? }
  | .reset r, "Value" => some fun v => return .reset { r with value := ← v.expr? }
  | .port p, "Name" => some fun v => return .port { p with name := ← v.name? }
  | .port p, "Type" => some fun v => return .port { p with type := ← v.type? }
  | .port p, "Dir" => some fun v => return .port { p with dir := ← v.direction? }
  | .module m, "Name" => some fun v => return .module { m with name := ← v.name? }
  | .module m, "Ports" => some fun v => return .module { m with ports := ← v.ports? }
  | .module m, "Statements" => some fun v => return .module { m with statements := ← v.stmts? }
  | .circuit c, "Name" => some fun v => return .circuit { c with name := ← v.name? }
  | .circuit c, "Modules" => some fun v => return .circuit { c with modules := ← v.modules? }
  | _, _ => none

/-- Replaces one field. -/
def Node.set (n : Node) (name : String) (v : FieldValue) : Except Error Node :=
  match n.slot? name with
  | none => .error (.construction n.kind name .unknownField)
  | some slot =>
    match slot v with
    | none => .error (mismatch n.kind name)
    | some n => .ok n

/-- Replaces fields one after the other. -/
def Node.setAll (n : Node) : List (String × FieldValue) → Except Error Node
  | [] => .ok n
  | (name, v) :: rest => do
    let n ← n.set name v
    n.setAll rest

/-- Replaces fields in the order of their names. The node that results has to be well formed as far
as its own fields tell, numbers out of range apart. -/
def Node.override (n : Node) (fields : List (String × FieldValue)) : Except Error Node :=
  if n.isKnown then do
    let n ← n.setAll (fields.mergeSort fun a b => a.1 ≤ b.1)
    match n.checkSelf with
    | .ok () => .ok n
    | .error (.invalid _ _) => .ok n
    | .error e => .error e
  else .error (.unhandled .rebuild n.kind)

/-- Replaces fields of what stands in a place. -/
def overridePlace (n : Option Node) (fields : List (String × FieldValue)) : Except Error Node :=
  match n with
  | none => .error (.unhandled .rebuild (placeKind none))
  | some n => n.override fields

end GuardedRtl.Rtl
