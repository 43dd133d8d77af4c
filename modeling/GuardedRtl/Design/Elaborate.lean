import GuardedRtl.Design.Basic
import GuardedRtl.Log
import GuardedRtl.Names
import GuardedRtl.Rtl.Check
import GuardedRtl.Rtl.Transform
import GuardedRtl.Schedule

/-! Elaboration of a design to a circuit of one module. Its ports are the standard ones and those of
the methods. Its statements declare the state, compute for each rule and method whether it can fire
and what it does, arbitrate the rules, and drive every state element that is updated. -/

namespace GuardedRtl

open Rtl

namespace Construct

/-- The name of a signal of the construct. -/
def signal (c : Construct) (suffix : String) : String := c.name ++ "_" ++ suffix

def canFire (c : Construct) : String := c.signal "can_fire"

def firing (c : Construct) : String := c.signal "firing"

def ready (c : Construct) : String := c.signal "ready"

def enable (c : Construct) : String := c.signal "enable"

def result (c : Construct) : String := c.signal "value"

def ports (c : Construct) : List Port :=
  match c with
  | .rule _ => []
  | .method (.action _ args) =>
    .input c.enable .bit :: args.map (fun a => .input a.port a.type) ++ [.output c.ready .bit]
  | .method (.value _ type _) => [.output c.ready .bit, .output c.result type]

/-- The names that the construct has in the circuit. -/
def identifiers (c : Construct) : List String :=
  c.canFire :: c.firing :: c.ports.map Port.name

/-- The expressions of the construct, in the order in which they are looked through for state; the
target of an update stands before its value. -/
def expressions (c : Construct) : List Expr :=
  c.core.guard ::
    (c.core.body.flatMap fun | .display _ args => args | .finish _ => []) ++
    (c.core.updates.flatMap fun u => [.leaf (.state u.target), u.value]) ++
    (match c with | .method (.value _ _ e) => [e] | _ => [])

end Construct

/-- Takes names that must all be free. -/
def reserveAll (design : String) (ns : Names) : List String → Except Error Names
  | [] => .ok ns
  | id :: rest =>
    match ns.reserve? id with
    | some ns => reserveAll design ns rest
    | none => .error (.construction design id .duplicateName)

/-- The names of the circuit that are not free to choose. -/
def Design.reserved (d : Design) : Except Error Names :=
  reserveAll d.name (.ofList [clockName, resetName]) (d.constructs.flatMap Construct.identifiers)

/-- Looking for state elements: those found so far, each once. -/
abbrev Discovery := StateT (List State) (Except Error)

def discoverState (s : State) : Discovery Unit :=
  modify fun found => if s ∈ found then found else found ++ [s]

def discoverNode : Node → Discovery Bool
  | .expr (.leaf (.state s)) => do
    discoverState s
    pure false
  | .expr (.leaf (.argument _)) => pure false
  | _ => pure true

def discoverAll : List Expr → Discovery Unit
  | [] => pure ()
  | e :: rest => do
    (Node.expr e).visit discoverNode
    discoverAll rest

/-- The state elements of a design: those declared, then those that its constructs mention. -/
def Design.discover (d : Design) : Except Error (List State) := do
  let declared : Discovery Unit := d.state.forM discoverState
  let mentioned : Discovery Unit := discoverAll (d.constructs.flatMap Construct.expressions)
  let (_, found) ← (do declared; mentioned : Discovery Unit).run []
  pure found

/-- The names of the state elements in the circuit. -/
abbrev StateNames := List (State × String)

/-- The hint of an element, or what stands for it if it has none. -/
def State.effectiveHint (s : State) : String :=
  if s.hint = "" then
    match s.storage with
    | .register _ => "reg"
    | .wire | .foreign _ => "wire"
  else s.hint

/-- Gives every element a fresh name made of the design's name and the element's hint. -/
def nameState (design : String) (ns : Names) : List State → StateNames
  | [] => []
  | s :: rest =>
    let (name, ns) := ns.fresh (design ++ "_" ++ State.effectiveHint s)
    (s, name) :: nameState design ns rest

/-- The name of an element; every element of a design has one. -/
def StateNames.get (names : StateNames) (s : State) : String := (names.lookup s).getD ""

def declareState (name : String) (s : State) : Except Error Stmt :=
  match s.storage with
  | .register reset =>
    .ok (.clocked name s.type (match reset with | some v => .literal v s.type | none => .absent))
  | .wire => .ok (.wire name s.type)
  | .foreign kind => .error (.unhandled .declare kind)

/-- The declarations of the elements, in order. The first that has none is reported. -/
def StateNames.declare (names : StateNames) : Except Error (List Stmt) :=
  names.mapM fun n => declareState n.2 n.1

/-- Replaces state elements and arguments by references to their names. -/
def lowerNode (names : StateNames) : Node → Except Error (Option Node)
  | .expr (.leaf (.state s)) => .ok (some (.expr (.ref (names.get s))))
  | .expr (.leaf (.argument a)) => .ok (some (.expr (.ref a.port)))
  | n => if n.isKnown then .ok (some n) else .error (.unhandled .lower n.kind)

def lowerExpr (names : StateNames) (e : Expr) : Except Error Expr :=
  transformTo Node.expr? (lowerNode names) (if e.isPresent then some (.expr e) else none)

/-- A new value for a state element, taken when `firing` is set. -/
structure Driver where
  target : State
  firing : Expr
  value : Expr

/-- The statements of a construct, and the values it gives to state elements. -/
structure Block where
  statements : List Stmt
  drivers : List Driver

def lowerEffect (names : StateNames) (firing : String) : Effect → Except Error Stmt
  | .display format args => do
    let args ← args.mapM (lowerExpr names)
    pure (.printf (.ref clockName) (.ref firing) format args)
  | .finish exitCode => pure (.stop (.ref clockName) (.ref firing) exitCode)

def lowerUpdate (names : StateNames) (firing : String) (u : Update) : Except Error Driver := do
  pure ⟨u.target, .ref firing, ← lowerExpr names u.value⟩

/-- The connections of the outputs of a construct. -/
def Construct.lowerOutputs (names : StateNames) (c : Construct) : Except Error (List Stmt) :=
  match c with
  | .rule _ => pure []
  | .method (.action _ _) => pure [.connect c.ready (.ref c.canFire)]
  | .method (.value _ _ e) => do
    pure [.connect c.ready (.ref c.canFire), .connect c.result (← lowerExpr names e)]

def Construct.lowerBlock (names : StateNames) (c : Construct) : Except Error Block := do
  let guard ← lowerExpr names c.core.guard
  let effects ← c.core.body.mapM (lowerEffect names c.firing)
  let drivers ← c.core.updates.mapM (lowerUpdate names c.firing)
  let outputs ← c.lowerOutputs names
  pure ⟨.wire c.canFire .bit :: .wire c.firing .bit :: .connect c.canFire guard ::
    effects ++ outputs, drivers⟩

/-- Adds to an error where it arose. -/
def locate {α : Type} (place : String) : Except Error α → Except Error α
  | .ok a => .ok a
  | .error e => .error (.within place e)

def Construct.lower (names : StateNames) (c : Construct) : Except Error Block :=
  locate ("lower " ++ c.name) (c.lowerBlock names)

/-- Rules fire by priority in the order of their declaration. -/
def scheduleRules (rules : List Rule) : List Stmt :=
  let cs := rules.map Construct.rule
  List.zipWith (fun c e => .connect (Construct.firing c) e) cs
    (Schedule.priority (cs.map fun c => .ref c.canFire))

/-- An action fires when it can and is enabled, a value method whenever it can. -/
def scheduleMethod (m : Method) : Stmt :=
  let c := Construct.method m
  match m with
  | .action _ _ => .connect c.firing (.and (.ref c.canFire) (.ref c.enable))
  | .value _ _ _ => .connect c.firing (.ref c.canFire)

def Design.scheduler (d : Design) : List Stmt :=
  scheduleRules d.rules ++ d.methods.map scheduleMethod

/-- The value of the first driver that fires, else `default`. -/
def select (default : Expr) : List Driver → Expr
  | [] => default
  | d :: rest => .mux d.firing d.value (select default rest)

/-- The value of the first driver that fires, else that of the last one. -/
def selectLast (d : Driver) : List Driver → Expr
  | [] => d.value
  | next :: rest => .mux d.firing d.value (selectLast next rest)

/-- Whether any driver fires. -/
def anyFiring (d : Driver) (rest : List Driver) : Expr :=
  rest.foldl (fun e d => .or e d.firing) d.firing

/-- The connection of a state element that has drivers. A register that no driver updates keeps its
value, a wire is invalid then. -/
def driveState (name : String) (s : State) : List Driver → List Stmt
  | [] => []
  | d :: rest =>
    match s.storage with
    | .register _ => [.connect name (select (.ref name) (d :: rest))]
    | .wire => [.connect name (.validIf (anyFiring d rest) (selectLast d rest))]
    | .foreign _ => []

def driversOf (blocks : List Block) (s : State) : List Driver :=
  (blocks.flatMap Block.drivers).filter fun d => d.target = s

/-- The module of a design whose state elements have the given names and declarations. -/
def Design.module (d : Design) (names : StateNames) (declarations : List Stmt)
    (blocks : List Block) : Module :=
  .clocked d.name (d.constructs.flatMap Construct.ports)
    (declarations ++
      blocks.flatMap Block.statements ++
      d.scheduler ++
      names.flatMap fun n => driveState n.2 n.1 (driversOf blocks n.1))

/-- The names of the state elements of a design. -/
def Design.stateNames (d : Design) : Except Error StateNames := do
  let ns ← d.reserved
  let state ← d.discover
  pure (nameState d.name ns state)

def Design.assemble (d : Design) : Except Error Circuit := do
  let names ← d.stateNames
  let declarations ← names.declare
  let blocks ← d.constructs.mapM (Construct.lower names)
  let circuit : Circuit := ⟨d.name, [d.module names declarations blocks]⟩
  (Node.circuit circuit).check
  pure circuit

/-- The circuit of a design. -/
def Design.elaborate (d : Design) : Except Error Circuit :=
  locate ("elaborate " ++ d.name) d.assemble

/-- Elaborates what a builder has made, if anything. -/
def elaboratePlace : Option Design → Except Error Circuit
  | none => .error .noDesign
  | some d => d.elaborate

/-! The trace of an elaboration says which names were given, which constructs were lowered and, at
the end, how large the circuit is. -/

def traceEntry (design message : String) (fields : List (String × Log.Datum)) : Log.Entry :=
  ⟨.debug, message, ("module", .text design) :: fields⟩

def traceState (design : String) (n : State × String) : Log.Entry :=
  traceEntry design "state" [("name", .text n.2), ("hint", .text n.1.hint)]

def traceConstruct (design : String) (c : Construct) : Log.Entry :=
  traceEntry design "lowered" [("name", .text c.name), ("statements", .number c.core.body.length),
    ("updates", .number c.core.updates.length)]

def traceCircuit (design : String) (c : Circuit) : List Log.Entry :=
  c.modules.map fun m => traceEntry design "elaborated"
    [("ports", .number m.ports.length), ("statements", .number m.statements.length)]

def Design.trace (d : Design) : List Log.Entry :=
  match d.stateNames with
  | .error _ => []
  | .ok names =>
    names.map (traceState d.name) ++
      match names.declare with
      | .error _ => []
      | .ok _ =>
        (d.constructs.takeWhile fun c => (c.lower names).isOk).map (traceConstruct d.name) ++
          match d.assemble with
          | .ok c => traceCircuit d.name c
          | .error _ => []

def tracePlace : Option Design → List Log.Entry
  | none => []
  | some d => d.trace

end GuardedRtl
