import GuardedRtl.Toml.Datetime

/-! Documents of keys and values. `Item` is what a document says line by line; `Table` is what it
means once the lines are put together. -/

namespace GuardedRtl.Toml

/-- A part of a quoted text: a character that stands for itself, a short escape, or a code point. -/
inductive Piece where
  | plain (c : Char)
  | short (letter : Char)
  | code (point : Nat)
  deriving DecidableEq

/-- The kinds of values that are kept as they are written. -/
inductive Kind where
  | integer
  | float
  | boolean
  | datetime (d : Datetime)
  deriving DecidableEq

def Kind.name : Kind → String
  | .integer => "integer"
  | .float => "float"
  | .boolean => "boolean"
  | .datetime _ => "datetime"

/-- A text with the line it ends on. -/
structure Quoted where
  pieces : List Piece
  line : Nat

/-- A key is a text, whether it is quoted or not. -/
abbrev Key := Quoted

mutual

/-- A written value. A table between braces has the line it starts on. -/
inductive Literal where
  | text (q : Quoted)
  | scalar (kind : Kind) (source : String)
  | array (elements : List Literal)
  | table (line : Nat) (pairs : List Pair)

/-- A key with its value, and the line the value ends on. -/
inductive Pair where
  | mk (key : Key) (value : Literal) (line : Nat)

end

/-- A table header. The name is kept as it is written, beside its keys. A repeated table is one of
several of its name. -/
structure Header where
  name : String
  keys : List Key
  line : Nat
  repeated : Bool

inductive Item where
  | header (h : Header)
  | pair (p : Pair)

/-- A value other than a table. -/
inductive Value where
  | text (s : String)
  | scalar (kind : Kind) (source : String)
  | array (elements : List Value)

mutual

/-- What a key stands for. -/
inductive Entry where
  | value (line : Nat) (v : Value)
  | table (t : Table)
  | tables (ts : List Table)

/-- Named entries in the order in which they are added. A table without a header of its own can still
get one. -/
inductive Table where
  | mk (line : Nat) (headed : Bool) (entries : List (String × Entry))

end

def Table.line : Table → Nat
  | .mk line _ _ => line

def Table.headed : Table → Bool
  | .mk _ headed _ => headed

def Table.entries : Table → List (String × Entry)
  | .mk _ _ entries => entries

/-- The line that a key's entry is on, that of the first table for several. -/
def Entry.line : Entry → Nat
  | .value line _ => line
  | .table t => t.line
  | .tables ts => (ts.head?.map Table.line).getD 0

/-- Why a document means nothing. Line numbers say where the other side of a conflict is. -/
inductive Problem where
  | badEscape
  | keyTwice (key : String) (other : Nat)
  | keyAndTable (key : String) (other : Nat)
  | keyAndTables (key : String)
  | pathThroughValue (key : String) (other : Nat)
  | tableAndTable (name : String) (other : Nat)
  | tableAndTables (name : String) (other : Nat)
  | tableAndValue (name : String) (other : Nat)
  | tablesAndTable (name : String) (other : Nat)
  | tablesAndValue (name : String) (other : Nat)
  deriving DecidableEq

inductive Error where
  | syntaxError
  | at (line : Nat) (problem : Problem)
  deriving DecidableEq

end GuardedRtl.Toml
