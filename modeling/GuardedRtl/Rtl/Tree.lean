import GuardedRtl.Rtl.Circuit
import GuardedRtl.Rtl.Error

/-! A node as an ordered tree. The children of a node are the parts that are filled in, in the order
of its fields; a visit meets them in pre-order. -/

namespace GuardedRtl.Rtl

inductive Tree where
  | node (root : Node) (children : List Tree)

def Tree.root : Tree → Node
  | .node n _ => n

def Tree.children : Tree → List Tree
  | .node _ cs => cs

/- The tree of a place, none if it is not filled in. -/

mutual

def Ty.trees : Ty → List Tree
  | .absent => []
  | .vector elem count => [.node (.type (.vector elem count)) elem.trees]
  | .bundle fields => [.node (.type (.bundle fields)) (Field.trees fields)]
  | t => [.node (.type t) []]

def Field.trees : List Field → List Tree
  | [] => []
  | ⟨name, type⟩ :: fields => .node (.field ⟨name, type⟩) type.trees :: Field.trees fields

end

def Expr.trees : Expr → List Tree
  | .absent => []
  | .ref name => [.node (.expr (.ref name)) []]
  | .literal v t => [.node (.expr (.literal v t)) t.trees]
  | .mux sel a b => [.node (.expr (.mux sel a b)) (sel.trees ++ a.trees ++ b.trees)]
  | .validIf valid a => [.node (.expr (.validIf valid a)) (valid.trees ++ a.trees)]
  | .binary op a b => [.node (.expr (.binary op a b)) (a.trees ++ b.trees)]
  | .compare op a b => [.node (.expr (.compare op a b)) (a.trees ++ b.trees)]
  | .unary op e => [.node (.expr (.unary op e)) e.trees]
  | .pad e w => [.node (.expr (.pad e w)) e.trees]
  | .shiftLeft e n amount => [.node (.expr (.shiftLeft e n amount)) (e.trees ++ amount.trees)]
  | .shiftRight e n amount => [.node (.expr (.shiftRight e n amount)) (e.trees ++ amount.trees)]
  | .bits e hi lo => [.node (.expr (.bits e hi lo)) e.trees]
  | .head e n => [.node (.expr (.head e n)) e.trees]
  | .tail e n => [.node (.expr (.tail e n)) e.trees]
  | .leaf l => [.node (.expr (.leaf l)) []]

def Reset.tree (r : Reset) : Tree := .node (.reset r) (r.enable.trees ++ r.value.trees)

def Stmt.trees : Stmt → List Tree
  | .absent => []
  | .connect lhs rhs => [.node (.stmt (.connect lhs rhs)) ((Expr.ref lhs).trees ++ rhs.trees)]
  | .register name type clock reset =>
    [.node (.stmt (.register name type clock reset))
      (type.trees ++ clock.trees ++ (reset.map Reset.tree).toList)]
  | .wire name type => [.node (.stmt (.wire name type)) type.trees]
  | .printf clock condition format args =>
    [.node (.stmt (.printf clock condition format args))
      (clock.trees ++ condition.trees ++ args.flatMap Expr.trees)]
  | .stop clock condition exitCode =>
    [.node (.stmt (.stop clock condition exitCode)) (clock.trees ++ condition.trees)]
  | .foreign kind => [.node (.stmt (.foreign kind)) []]

def Port.tree (p : Port) : Tree := .node (.port p) p.type.trees

def Module.tree (m : Module) : Tree :=
  .node (.module m) (m.ports.map Port.tree ++ m.statements.flatMap Stmt.trees)

def Circuit.tree (c : Circuit) : Tree := .node (.circuit c) (c.modules.map Module.tree)

def Node.trees : Node → List Tree
  | .type t => t.trees
  | .field f => [.node (.field f) f.type.trees]
  | .expr e => e.trees
  | .stmt s => s.trees
  | .reset r => [r.tree]
  | .port p => [p.tree]
  | .module m => [m.tree]
  | .circuit c => [c.tree]

/-- The children of a node, unless its kind is not of the circuit language. -/
def Node.children (n : Node) : Except Error (List Node) :=
  if n.isKnown then .ok ((n.trees.flatMap Tree.children).map Tree.root)
  else .error (.unhandled .visit n.kind)

/-- The children of what stands in a place. -/
def placeChildren : Option Node → Except Error (List Node)
  | none => .error (.unhandled .visit (placeKind none))
  | some n => n.children

section

variable {m : Type → Type} [Monad m] [MonadExceptOf Error m]

mutual

/-- Calls `f` on the root and, where it asks for that, goes on below it. -/
def Tree.visit (f : Node → m Bool) : Tree → m Unit
  | .node n cs => do
    if ← f n then
      if n.isKnown then Tree.visitAll f cs
      else throw (Error.unhandled .visit n.kind)

def Tree.visitAll (f : Node → m Bool) : List Tree → m Unit
  | [] => pure ()
  | t :: ts => do
    t.visit f
    Tree.visitAll f ts

end

/-- Visits a node in pre-order. A place not filled in is not visited. -/
def Node.visit (f : Node → m Bool) (n : Node) : m Unit := Tree.visitAll f n.trees

end

end GuardedRtl.Rtl
