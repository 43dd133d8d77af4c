import GuardedRtl.Toml.Grammar

/-! From items to tables. A name stands for one thing in its table: a value, a table, or several
tables. A table that was only passed through on the way to another, or was written between braces, may
still be given a header or be written again. -/

namespace GuardedRtl.Toml

def Piece.char? : Piece → Option Char
  | .plain c => some c
  | .short 'b' => some '\x08'
  | .short 't' => some '\t'
  | .short 'n' => some '\n'
  | .short 'f' => some '\x0c'
  | .short 'r' => some '\r'
  | .short '"' => some '"'
  | .short '\\' => some '\\'
  | .short _ => none
  | .code n => if n.isValidChar then some (Char.ofNat n) else none

/-- The text that a quoted text stands for; not every escape of the grammar stands for a character. -/
def Quoted.text (q : Quoted) : Except Error String :=
  match q.pieces.mapM Piece.char? with
  | some cs => .ok (String.ofList cs)
  | none => .error (.at q.line .badEscape)

namespace Table

def empty (line : Nat) (headed : Bool) : Table := .mk line headed []

def get? (t : Table) (name : String) : Option Entry := t.entries.lookup name

def replace (name : String) (e : Entry) : List (String × Entry) → List (String × Entry)
  | [] => [(name, e)]
  | (n, old) :: rest => if n = name then (n, e) :: rest else (n, old) :: replace name e rest

/-- Sets an entry; a new one goes to the end. -/
def set (t : Table) (name : String) (e : Entry) : Table :=
  .mk t.line t.headed (replace name e t.entries)

/-- Changes the table at the end of a path. Of several tables the path goes on through the last;
missing ones are made on the way. -/
def updateAt (line : Nat) (change : Table → Except Problem Table) :
    List String → Table → Except Problem Table
  | [], t => change t
  | name :: path, t =>
    match t.get? name with
    | none => do return t.set name (.table (← updateAt line change path (empty line false)))
    | some (.table inner) => do return t.set name (.table (← updateAt line change path inner))
    | some (.tables ts) => do
      let last := ts.getLast?.getD (empty line false)
      return t.set name (.tables (ts.dropLast ++ [← updateAt line change path last]))
    | some (.value other _) => .error (.pathThroughValue name other)

/-- Adds one of several tables of a name. -/
def openRepeated (line : Nat) (headed : Bool) (written name : String) (t : Table) :
    Except Problem Table :=
  match t.get? name with
  | none => .ok (t.set name (.tables [empty line headed]))
  | some (.tables ts) => .ok (t.set name (.tables (ts ++ [empty line headed])))
  | some (.table other) => .error (.tablesAndTable written other.line)
  | some (.value other _) => .error (.tablesAndValue written other)

/-- Adds the one table of a name, or takes over one that has no header yet. -/
def openSingle (line : Nat) (headed : Bool) (written name : String) (t : Table) :
    Except Problem Table :=
  match t.get? name with
  | none => .ok (t.set name (.table (empty line headed)))
  | some (.tables ts) => .error (.tableAndTables written (Entry.tables ts).line)
  | some (.table other) =>
    if other.headed then .error (.tableAndTable written other.line)
    else .ok (t.set name (.table (.mk line headed other.entries)))
  | some (.value other _) => .error (.tableAndValue written other)

def addValue (line : Nat) (name : String) (v : Value) (t : Table) : Except Problem Table :=
  match t.get? name with
  | none => .ok (t.set name (.value line v))
  | some (.value other _) => .error (.keyTwice name other)
  | some (.table other) => .error (.keyAndTable name other.line)
  | some (.tables _) => .error (.keyAndTables name)

end Table

/-- A document under construction: its outermost table, and the path of the table that pairs go to. -/
structure Document where
  root : Table
  here : List String

namespace Document

def updateAt (d : Document) (line : Nat) (path : List String)
    (change : Table → Except Problem Table) : Except Error Document :=
  match d.root.updateAt line change path with
  | .ok root => .ok { d with root }
  | .error problem => .error (.at line problem)

/-- Opens the table at a path, and goes there; messages name it as it is written. -/
def openTable (d : Document) (line : Nat) (headed repeated : Bool) (path : List String)
    (written : String) : Except Error Document := do
  let name := path.getLast?.getD ""
  let change := if repeated then Table.openRepeated line headed written name
    else Table.openSingle line headed written name
  let d ← d.updateAt line path.dropLast change
  return { d with here := path }

end Document

mutual

def Literal.hasTable : Literal → Bool
  | .text _ => false
  | .scalar _ _ => false
  | .array elements => Literal.anyTable elements
  | .table _ _ => true

def Literal.anyTable : List Literal → Bool
  | [] => false
  | l :: ls => l.hasTable || Literal.anyTable ls

end

mutual

/-- The value of a literal without tables. -/
def Literal.value : Literal → Except Error Value
  | .text q => do return .text (← q.text)
  | .scalar kind source => .ok (.scalar kind source)
  | .array elements => do return .array (← Literal.values elements)
  | .table _ _ => .ok (.array [])

def Literal.values : List Literal → Except Error (List Value)
  | [] => .ok []
  | l :: ls => do
    let v ← l.value
    let vs ← Literal.values ls
    return v :: vs

end

mutual

/-- Adds a pair to the table at `here`. A table between braces is a table of its own, and the tables
in an array are several tables of the array's name, whatever else the array holds. -/
def Document.addPair (repeated : Bool) (d : Document) : Pair → Except Error Document
  | .mk key (.table start pairs) _ => do
    let name ← key.text
    let opened ← d.openTable start false repeated (d.here ++ [name]) name
    let filled ← Document.addPairs repeated opened pairs
    return { filled with here := d.here }
  | .mk key (.array elements) line => do
    let name ← key.text
    if Literal.anyTable elements then Document.addElements d name elements
    else
      let vs ← Literal.values elements
      d.updateAt line d.here (Table.addValue line name (.array vs))
  | .mk key (.text q) line => do
    let name ← key.text
    let s ← q.text
    d.updateAt line d.here (Table.addValue line name (.text s))
  | .mk key (.scalar kind source) line => do
    let name ← key.text
    d.updateAt line d.here (Table.addValue line name (.scalar kind source))

def Document.addPairs (repeated : Bool) (d : Document) : List Pair → Except Error Document
  | [] => .ok d
  | p :: ps => do
    let next ← Document.addPair repeated d p
    Document.addPairs repeated next ps

def Document.addElement (d : Document) (name : String) : Literal → Except Error Document
  | .table start pairs => do
    let opened ← d.openTable start false true (d.here ++ [name]) name
    let filled ← Document.addPairs true opened pairs
    return { filled with here := d.here }
  | .array elements => Document.addElements d name elements
  | .text q => do
    let _ ← q.text
    return d
  | .scalar _ _ => .ok d

def Document.addElements (d : Document) (name : String) : List Literal → Except Error Document
  | [] => .ok d
  | l :: ls => do
    let next ← Document.addElement d name l
    Document.addElements next name ls

end

def Document.addItem (d : Document) : Item → Except Error Document
  | .header h => do
    let path ← h.keys.mapM Quoted.text
    d.openTable h.line true h.repeated path h.name
  | .pair p => d.addPair false p

/-- Reads a document. -/
def parse (text : String) : Except Error Table :=
  match readItems text with
  | none => .error .syntaxError
  | some items => do
    let d ← items.foldlM Document.addItem ⟨Table.empty 1 false, []⟩
    return d.root

def hexText (n : Nat) : String := String.ofList (Nat.toDigits 16 n)

def Problem.message : Problem → String
  | .badEscape => "invalid syntax"
  | .keyTwice key other => "key `" ++ key ++ "' is in conflict with line " ++ hexText other ++ "d"
  | .keyAndTable key other =>
    "key `" ++ key ++ "' is in conflict with table in line " ++ toString other
  | .keyAndTables key =>
    "BUG: key `" ++ key ++ "' is in conflict but it's unknown type `[]*ast.Table'"
  | .pathThroughValue key other =>
    "key `" ++ key ++ "' is in conflict with line " ++ toString other
  | .tableAndTable name other =>
    "table `" ++ name ++ "' is in conflict with table in line " ++ toString other
  | .tableAndTables name other =>
    "table `" ++ name ++ "' is in conflict with array table in line " ++ toString other
  | .tableAndValue name other =>
    "table `" ++ name ++ "' is in conflict with line " ++ toString other
  | .tablesAndTable name other =>
    "array table `" ++ name ++ "' is in conflict with table in line " ++ toString other
  | .tablesAndValue name other =>
    "array table `" ++ name ++ "' is in conflict with line " ++ toString other

end GuardedRtl.Toml
