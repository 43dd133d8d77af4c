import GuardedRtl.Rtl.Check

/-! The text of a circuit: one line for the circuit and one for each module, port and statement. The
last module ends without a newline; a circuit without modules is its first line, newline and all. Only
well-formed nodes have a text. -/

namespace GuardedRtl.Rtl

/-- The items with `, ` between them. -/
def commaSeparated : List String → String
  | [] => ""
  | [item] => item
  | item :: rest => item ++ ", " ++ commaSeparated rest

def widthText (name : String) (width : Int64) : String :=
  if width = 0 then name else name ++ "<" ++ decimal width ++ ">"

mutual

def Ty.text : Ty → String
  | .absent => ""
  | .uint width => widthText "UInt" width
  | .sint width => widthText "SInt" width
  | .clock => "Clock"
  | .vector elem count => elem.text ++ "[" ++ decimal count ++ "]"
  | .bundle fields => "\x7b" ++ commaSeparated (Field.texts fields) ++ "\x7d"
  | .foreign _ => ""

def Field.texts : List Field → List String
  | [] => []
  | ⟨name, type⟩ :: fields => (name ++ ": " ++ type.text) :: Field.texts fields

end

def Field.text (f : Field) : String := f.name ++ ": " ++ f.type.text

def callText (op : String) (operands : List String) : String :=
  op ++ "(" ++ commaSeparated operands ++ ")"

def Expr.text : Expr → String
  | .absent => ""
  | .ref name => name
  | .literal value type => type.text ++ "(" ++ decimal value ++ ")"
  | .mux sel a b => callText "mux" [sel.text, a.text, b.text]
  | .validIf valid a => callText "validif" [valid.text, a.text]
  | .binary op a b => callText op.keyword [a.text, b.text]
  | .compare op a b => callText op.keyword [a.text, b.text]
  | .unary op e => callText op.keyword [e.text]
  | .pad e width => callText "pad" [e.text, decimal width]
  | .shiftLeft e places amount =>
    if amount.isPresent then callText "dshl" [e.text, amount.text]
    else callText "shl" [e.text, decimal places]
  | .shiftRight e places amount =>
    if amount.isPresent then callText "dshr" [e.text, amount.text]
    else callText "shr" [e.text, decimal places]
  | .bits e hi lo => callText "bits" [e.text, decimal hi, decimal lo]
  | .head e count => callText "head" [e.text, decimal count]
  | .tail e count => callText "tail" [e.text, decimal count]
  | .leaf _ => ""

def formatEscape (c : Char) : List Char :=
  if c = '"' then ['\\', '"']
  else if c = '\\' then ['\\', '\\']
  else if c = '\n' then ['\\', 'n']
  else if c = '\t' then ['\\', 't']
  else [c]

/-- The text in a format between quotes, on one line. Bytes that are no text all look alike in it. -/
def formatText (format : Text.Bytes) : String :=
  String.ofList ('"' :: (Text.decode format).toList.flatMap formatEscape ++ ['"'])

def Reset.text (r : Reset) : String :=
  " with: (reset => (" ++ r.enable.text ++ ", " ++ r.value.text ++ "))"

def Stmt.text : Stmt → String
  | .absent => ""
  | .connect lhs rhs => lhs ++ " <= " ++ rhs.text
  | .register name type clock reset =>
    "reg " ++ name ++ " : " ++ type.text ++ ", " ++ clock.text ++ (reset.map Reset.text).getD ""
  | .wire name type => "wire " ++ name ++ ": " ++ type.text
  | .printf clock condition format args =>
    callText "printf" (clock.text :: condition.text :: formatText format :: args.map Expr.text)
  | .stop clock condition exitCode =>
    callText "stop" [clock.text, condition.text, decimal exitCode]
  | .foreign _ => ""

def Port.text (p : Port) : String := p.dir.keyword ++ " " ++ p.name ++ " : " ++ p.type.text

/-- The lines with a newline between them. -/
def joinLines : List String → String
  | [] => ""
  | [line] => line
  | line :: rest => line ++ "\n" ++ joinLines rest

def Module.lines (m : Module) : List String :=
  ("  module " ++ m.name ++ " :") ::
    (m.ports.map Port.text ++ m.statements.map Stmt.text).map ("    " ++ ·)

def Module.text (m : Module) : String := joinLines m.lines

def Circuit.text (c : Circuit) : String :=
  "circuit " ++ c.name ++ " :\n" ++ joinLines (c.modules.map Module.text)

def Node.text : Node → String
  | .type t => t.text
  | .field f => f.text
  | .expr e => e.text
  | .stmt s => s.text
  | .reset r => r.text
  | .port p => p.text
  | .module m => m.text
  | .circuit c => c.text

/-! Places that are not filled in and kinds that the circuit language does not have are left blank in
a text. Their kinds, in the order of the text: -/

mutual

def Ty.textless : Ty → List String
  | .absent => [placeKind none]
  | .uint _ => []
  | .sint _ => []
  | .clock => []
  | .vector elem _ => elem.textless
  | .bundle fields => Field.textlessIn fields
  | .foreign kind => [kind]

def Field.textlessIn : List Field → List String
  | [] => []
  | ⟨_, type⟩ :: fields => type.textless ++ Field.textlessIn fields

end

def Expr.textless : Expr → List String
  | .absent => [placeKind none]
  | .ref _ => []
  | .literal _ type => type.textless
  | .mux sel a b => sel.textless ++ a.textless ++ b.textless
  | .validIf valid a => valid.textless ++ a.textless
  | .binary _ a b => a.textless ++ b.textless
  | .compare _ a b => a.textless ++ b.textless
  | .unary _ e => e.textless
  | .pad e _ => e.textless
  | .shiftLeft e _ amount => e.textless ++ if amount.isPresent then amount.textless else []
  | .shiftRight e _ amount => e.textless ++ if amount.isPresent then amount.textless else []
  | .bits e _ _ => e.textless
  | .head e _ => e.textless
  | .tail e _ => e.textless
  | .leaf l => [l.kind]

def Reset.textless (r : Reset) : List String := r.enable.textless ++ r.value.textless

def Stmt.textless : Stmt → List String
  | .absent => [placeKind none]
  | .connect _ rhs => rhs.textless
  | .register _ type clock reset =>
    type.textless ++ clock.textless ++ reset.toList.flatMap Reset.textless
  | .wire _ type => type.textless
  | .printf clock condition _ args =>
    clock.textless ++ condition.textless ++ args.flatMap Expr.textless
  | .stop clock condition _ => clock.textless ++ condition.textless
  | .foreign kind => [kind]

def Module.textless (m : Module) : List String :=
  m.ports.flatMap (·.type.textless) ++ m.statements.flatMap Stmt.textless

def Node.textless : Node → List String
  | .type t => t.textless
  | .field f => f.type.textless
  | .expr e => e.textless
  | .stmt s => s.textless
  | .reset r => r.textless
  | .port p => p.type.textless
  | .module m => m.textless
  | .circuit c => c.modules.flatMap Module.textless

/-- The text of a well-formed node, unless something is left blank in it. -/
def Node.print (n : Node) : Except Error String := do
  n.check
  match n.textless with
  | [] => pure n.text
  | kind :: _ => throw (.unhandled .print kind)

/-- The text of what stands in a place; an empty place has none. -/
def printPlace : Option Node → Except Error String
  | none => .error (.unhandled .print (placeKind none))
  | some n => n.print

def Circuit.print (c : Circuit) : Except Error String := (Node.circuit c).print

/-- Writes the text of a well-formed circuit with `put`. -/
def Circuit.write {m : Type → Type} [Monad m] [MonadExceptOf Error m] (put : String → m Unit)
    (c : Circuit) : m Unit := do
  let text ← MonadExcept.ofExcept c.print
  tryCatchThe Error (put text) fun e => throwThe Error (.within "write circuit" e)

end GuardedRtl.Rtl
