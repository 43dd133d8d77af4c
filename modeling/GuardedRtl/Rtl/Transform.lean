import GuardedRtl.Rtl.Tree

/-! Bottom-up change of a tree. The children of a node are changed first, then the node that holds
the changed children is given to a function, whose answer takes its place. The answer `none` drops
the node: it leaves a list, empties an optional place, and is refused in any other place. -/

namespace GuardedRtl.Rtl

section

variable {m : Type → Type} [Monad m] [MonadExceptOf Error m] {α : Type}

/-- What a changed child puts into a place that has to be filled. -/
def required (kind field : String) (cast : Node → Option α) : Option Node → m α
  | none => throw (missing kind field)
  | some n =>
    match cast n with
    | some a => pure a
    | none => throw (mismatch kind field)

/-- What a changed child puts into a place that may be `empty`. -/
def optional (kind field : String) (cast : Node → Option α) (empty : α) : Option Node → m α
  | none => pure empty
  | some n => required kind field cast (some n)

/-- The type that changing `t` puts into its place; a place not filled in stays so. -/
def Ty.refill (kind field : String) (t : Ty) (changed : m (Option Node)) : m Ty :=
  if t.isPresent then changed >>= required kind field Node.type? else pure .absent

/-- The operand that changing `e` puts into its place; a place not filled in stays so. -/
def Expr.refill (kind field : String) (e : Expr) (changed : m (Option Node)) : m Expr :=
  if e.isPresent then changed >>= required kind field Node.expr? else pure .absent

/-- The same for a place that may be emptied. -/
def Expr.refillOptional (kind field : String) (e : Expr) (changed : m (Option Node)) : m Expr :=
  if e.isPresent then changed >>= optional kind field Node.expr? .absent else pure .absent

/-- Changes the elements of a list in order. Dropped elements leave the list. -/
def refillList (kind field : String) (isPresent : α → Bool) (cast : Node → Option α)
    (change : α → m (Option Node)) : List α → m (List α)
  | [] => pure []
  | a :: rest =>
    if isPresent a then do
      match ← change a with
      | none => refillList kind field isPresent cast change rest
      | some n => do
        let b ← required kind field cast (some n)
        let bs ← refillList kind field isPresent cast change rest
        pure (b :: bs)
    else throw (missing kind field)

mutual

def Ty.transform (f : Node → m (Option Node)) : Ty → m (Option Node)
  | .absent => pure none
  | .vector elem count => do
    let elem ← elem.refill "Vector" "Elem" (elem.transform f)
    f (.type (.vector elem count))
  | .bundle fields => do
    let fields ← Field.transformAll f fields
    f (.type (.bundle fields))
  | t => f (.type t)

def Field.transformAll (f : Node → m (Option Node)) : List Field → m (List Field)
  | [] => pure []
  | ⟨name, type⟩ :: rest => do
    let type ← type.refill "Field" "Type" (type.transform f)
    match ← f (.field ⟨name, type⟩) with
    | none => Field.transformAll f rest
    | some n => do
      let field ← required "Bundle" "Fields" Node.field? (some n)
      let fields ← Field.transformAll f rest
      pure (field :: fields)

end

def Expr.transform (f : Node → m (Option Node)) : Expr → m (Option Node)
  | .absent => pure none
  | .ref name => f (.expr (.ref name))
  | .literal value type => do
    let type ← type.refill "Literal" "Type" (type.transform f)
    f (.expr (.literal value type))
  | .mux sel a b => do
    let sel ← sel.refill "Mux" "Sel" (sel.transform f)
    let a ← a.refill "Mux" "A" (a.transform f)
    let b ← b.refill "Mux" "B" (b.transform f)
    f (.expr (.mux sel a b))
  | .validIf valid a => do
    let valid ← valid.refill "ValidIf" "Valid" (valid.transform f)
    let a ← a.refill "ValidIf" "A" (a.transform f)
    f (.expr (.validIf valid a))
  | .binary op a b => do
    let a ← a.refill "BinOp" "E1" (a.transform f)
    let b ← b.refill "BinOp" "E2" (b.transform f)
    f (.expr (.binary op a b))
  | .compare op a b => do
    let a ← a.refill "Cmp" "E1" (a.transform f)
    let b ← b.refill "Cmp" "E2" (b.transform f)
    f (.expr (.compare op a b))
  | .unary op e => do
    let e ← e.refill "UnOp" "E" (e.transform f)
    f (.expr (.unary op e))
  | .pad e width => do
    let e ← e.refill "Pad" "E" (e.transform f)
    f (.expr (.pad e width))
  | .shiftLeft e places amount => do
    let e ← e.refill "ShiftLeft" "E" (e.transform f)
    let amount ← amount.refillOptional "ShiftLeft" "By" (amount.transform f)
    f (.expr (.shiftLeft e places amount))
  | .shiftRight e places amount => do
    let e ← e.refill "ShiftRight" "E" (e.transform f)
    let amount ← amount.refillOptional "ShiftRight" "By" (amount.transform f)
    f (.expr (.shiftRight e places amount))
  | .bits e hi lo => do
    let e ← e.refill "Extract" "E" (e.transform f)
    f (.expr (.bits e hi lo))
  | .head e count => do
    let e ← e.refill "Head" "E" (e.transform f)
    f (.expr (.head e count))
  | .tail e count => do
    let e ← e.refill "Tail" "E" (e.transform f)
    f (.expr (.tail e count))
  | .leaf l => f (.expr (.leaf l))

def Reset.transform (f : Node → m (Option Node)) (r : Reset) : m (Option Node) := do
  let enable ← r.enable.refill "Reset" "Enable" (r.enable.transform f)
  let value ← r.value.refill "Reset" "Value" (r.value.transform f)
  f (.reset ⟨enable, value⟩)

/-- Changes the reset clause of a register, if there is one. -/
def Reset.transformClause (f : Node → m (Option Node)) : Option Reset → m (Option Reset)
  | none => pure none
  | some r => do
    optional "Register" "Reset" (fun n => n.reset?.map some) none (← r.transform f)

def Stmt.transform (f : Node → m (Option Node)) : Stmt → m (Option Node)
  | .absent => pure none
  | .connect lhs rhs => do
    let lhs ← required "Connect" "Lhs" Node.ref? (← f (.expr (.ref lhs)))
    let rhs ← rhs.refill "Connect" "Rhs" (rhs.transform f)
    f (.stmt (.connect lhs rhs))
  | .register name type clock reset => do
    let type ← type.refill "Register" "Type" (type.transform f)
    let clock ← clock.refill "Register" "Clock" (clock.transform f)
    let reset ← Reset.transformClause f reset
    f (.stmt (.register name type clock reset))
  | .wire name type => do
    let type ← type.refill "WireDeclaration" "Type" (type.transform f)
    f (.stmt (.wire name type))
  | .printf clock condition format args => do
    let clock ← clock.refill "PrintF" "Clock" (clock.transform f)
    let condition ← condition.refill "PrintF" "Condition" (condition.transform f)
    let args ← refillList "PrintF" "Args" Expr.isPresent Node.expr? (Expr.transform f) args
    f (.stmt (.printf clock condition format args))
  | .stop clock condition exitCode => do
    let clock ← clock.refill "Stop" "Clock" (clock.transform f)
    let condition ← condition.refill "Stop" "Condition" (condition.transform f)
    f (.stmt (.stop clock condition exitCode))
  | .foreign kind => f (.stmt (.foreign kind))

def Port.transform (f : Node → m (Option Node)) (p : Port) : m (Option Node) := do
  let type ← p.type.refill "Port" "Type" (p.type.transform f)
  f (.port { p with type })

def Module.transform (f : Node → m (Option Node)) (mod : Module) : m (Option Node) := do
  let ports ← refillList "Module" "Ports" (fun _ => true) Node.port? (Port.transform f) mod.ports
  let statements ←
    refillList "Module" "Statements" Stmt.isPresent Node.stmt? (Stmt.transform f) mod.statements
  f (.module { mod with ports, statements })

def Circuit.transform (f : Node → m (Option Node)) (c : Circuit) : m (Option Node) := do
  let modules ←
    refillList "Circuit" "Modules" (fun _ => true) Node.module? (Module.transform f) c.modules
  f (.circuit { c with modules })

/-- Changes a tree from its leaves up. -/
def Node.transform (f : Node → m (Option Node)) : Node → m (Option Node)
  | .type t => t.transform f
  | .field part => do
    let type ← part.type.refill "Field" "Type" (part.type.transform f)
    f (.field { part with type })
  | .expr e => e.transform f
  | .stmt s => s.transform f
  | .reset r => r.transform f
  | .port p => p.transform f
  | .module mod => mod.transform f
  | .circuit c => c.transform f

/-- Changes what stands in a place; nothing is made of an empty one. -/
def transformPlace (f : Node → m (Option Node)) : Option Node → m (Option Node)
  | none => pure none
  | some n => n.transform f

/-- Changes a tree to one of the family of `cast`. -/
def transformTo (cast : Node → Option α) (f : Node → m (Option Node)) (n : Option Node) : m α := do
  required (placeKind n) "" cast (← transformPlace f n)

end

end GuardedRtl.Rtl
