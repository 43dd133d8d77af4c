import GuardedRtl.Sim.Duration
import GuardedRtl.Text.Decimal
import GuardedRtl.Toml.Table

/-! How to reach the simulator, as a configuration file says it. What the file leaves out keeps its
default. -/

namespace GuardedRtl.Sim

structure Config where
  /-- The simulator's command and its arguments, run in `dir`. -/
  command : String := "./treadle.sh"
  args : List String := []
  dir : String := ""
  /-- How the line starts by which the simulator answers a command. -/
  prompt : String := "treadle>>"
  /-- What the line contains that tells that the simulator is ready. -/
  banner : String := "Running treadle.TreadleRepl"
  /-- The address of a simulator server; if there is one, `command` is not used. -/
  remote : String := ""
  readTimeout : Duration := ⟨0⟩
  startupTimeout : Duration := ⟨30000000000⟩
  quitTimeout : Duration := ⟨1000000000⟩
  deriving DecidableEq

namespace Config

/-- Why an entry of the file cannot be used. A value of some `kind` is refused where a value of
another type belongs, which `needs` something else. -/
inductive Problem where
  | undefined (key owner : String)
  | wrongKind (kind target : String) (needs : Option String)
  | mixedArray
  | badDuration (e : Duration.ParseError)
  | outOfRange (source : String)
  | floatOutOfRange (source : String)
  | badDatetime (source : String) (p : Toml.Datetime.Problem)
  | malformed (p : Toml.Problem)
  deriving DecidableEq

def Problem.message : Problem → String
  | .undefined key owner => "field '" ++ key ++ "' is not defined in " ++ owner
  | .wrongKind kind target needs =>
    "cannot unmarshal TOML " ++ kind ++ " into " ++ target ++
      (match needs with
        | some what => " (need " ++ what ++ ")"
        | none => "")
  | .mixedArray => "array can't contain multiple types"
  | .badDuration e => e.message
  | .outOfRange source => "value " ++ source ++ " is out of range for int64"
  | .floatOutOfRange source =>
    "strconv.ParseFloat: parsing " ++ Text.quote source ++ ": value out of range"
  | .badDatetime source p => "parsing time " ++ Text.quoteAscii source ++ ": " ++ p.message
  | .malformed p => p.message

inductive Error where
  | noFile (file : String)
  | syntaxError (file : String)
  | at (file : String) (line : Nat) (field : Option String) (problem : Problem)
  deriving DecidableEq

def Error.message : Error → String
  | .noFile file => "load config: open " ++ file ++ ": no such file or directory"
  | .syntaxError file => file ++ ": invalid TOML syntax"
  | .at file line field problem =>
    file ++ ", line " ++ toString line ++ ": " ++
      (match field with
        | some f => "(" ++ f ++ ") "
        | none => "") ++ problem.message

/-- A problem with its line, and the field it is about. -/
structure Complaint where
  line : Nat
  field : Option String
  problem : Problem

abbrev Decoded := Except Complaint

def onField {α : Type} (line : Nat) (field : String) : Except Problem α → Decoded α
  | .ok a => .ok a
  | .error p => .error ⟨line, some field, p⟩

def kindName : Toml.Value → String
  | .text _ => "string"
  | .scalar kind _ => kind.name
  | .array _ => "array"

/-- Digits may be set apart by underscores. -/
def withoutUnderscores (source : String) : List Char := source.toList.filter (· != '_')

/-- What is wrong with a value whatever it is used for: a number that is too large, or a date that
does not exist. -/
def invalid? : Toml.Value → Option Problem
  | .scalar .float source =>
    let cs := withoutUnderscores source
    if (Text.Decimal.magnitude cs).overflows then some (.floatOutOfRange (String.ofList cs)) else none
  | .scalar (.datetime d) source => d.problem?.map (.badDatetime source)
  | _ => none

/-- Refuses a value of another type than `target`. -/
def refuse {α : Type} (target : String) (v : Toml.Value) : Except Problem α :=
  .error ((invalid? v).getD (.wrongKind (kindName v) target none))

def refuseArray {α : Type} (target : String) : Except Problem α :=
  .error (.wrongKind "array" target (some "slice"))

def refuseTable {α : Type} (target : String) (t : Toml.Table) : Decoded α :=
  .error ⟨t.line, none, .wrongKind "table" target (some "struct or map")⟩

def refuseTables {α : Type} (target : String) : Except Problem α :=
  .error (.wrongKind "array table" target (some "slice"))

def textOf : Toml.Value → Except Problem String
  | .text s => .ok s
  | .array _ => refuseArray "string"
  | v => refuse "string" v

/-- The elements of an array, which are all of the kind of the first. -/
def textsOf : Toml.Value → Except Problem (List String)
  | .array [] => .ok []
  | .array (v :: vs) => do
    let first ← textOf v
    let rest ← vs.mapM fun w => if kindName w = kindName v then textOf w else .error .mixedArray
    return first :: rest
  | v => refuse "[]string" v

def durationOf (text : String) : Except Problem Duration :=
  match Duration.parse text with
  | .ok d => .ok d
  | .error e => .error (.badDuration e)

/-- A length of time is read from the source of any value that has no parts. -/
def scalarDuration : Toml.Value → Except Problem Duration
  | .text s => durationOf s
  | .scalar _ source => durationOf source
  | v => refuse "sim.Duration" v

def nanosOf : Toml.Value → Except Problem Duration
  | .scalar .integer source =>
    let digits := withoutUnderscores source
    match Text.readInt? digits with
    | some n => .ok ⟨n⟩
    | none => .error (.outOfRange (String.ofList digits))
  | .array _ => refuseArray "time.Duration"
  | v => refuse "time.Duration" v

/-- A length of time as a table: nanoseconds under the one key. -/
def durationEntry (_ : Duration) (entry : String × Toml.Entry) : Decoded Duration :=
  if entry.1 = "Duration" then
    match entry.2 with
    | .value line v => onField line "sim.Duration.Duration" (nanosOf v)
    | .table t => refuseTable "time.Duration" t
    | .tables ts =>
      onField (Toml.Entry.tables ts).line "sim.Duration.Duration" (refuseTables "time.Duration")
  else
    .error ⟨entry.2.line, none, .undefined entry.1 "sim.Duration"⟩

def readDuration (field : String) (default : Duration) : Toml.Entry → Decoded Duration
  | .value line v => onField line field (scalarDuration v)
  | .table t => t.entries.foldlM durationEntry default
  | .tables ts => onField (Toml.Entry.tables ts).line field (refuseTables "sim.Duration")

def readText (field : String) : Toml.Entry → Decoded String
  | .value line v => onField line field (textOf v)
  | .table t => refuseTable "string" t
  | .tables ts => onField (Toml.Entry.tables ts).line field (refuseTables "string")

def readTexts (field : String) : Toml.Entry → Decoded (List String)
  | .value line v => onField line field (textsOf v)
  | .table t => refuseTable "[]string" t
  | .tables ts => ts.mapM (refuseTable "string")

/-- Takes one entry of the file into account. -/
def setEntry (c : Config) (entry : String × Toml.Entry) : Decoded Config :=
  let (key, e) := entry
  let field := "sim.Config." ++ key
  match key with
  | "Command" => do return { c with command := ← readText field e }
  | "Args" => do return { c with args := ← readTexts field e }
  | "Dir" => do return { c with dir := ← readText field e }
  | "Prompt" => do return { c with prompt := ← readText field e }
  | "Banner" => do return { c with banner := ← readText field e }
  | "Remote" => do return { c with remote := ← readText field e }
  | "ReadTimeout" => do return { c with readTimeout := ← readDuration field c.readTimeout e }
  | "StartupTimeout" => do
    return { c with startupTimeout := ← readDuration field c.startupTimeout e }
  | "QuitTimeout" => do return { c with quitTimeout := ← readDuration field c.quitTimeout e }
  | _ => .error ⟨e.line, none, .undefined key "sim.Config"⟩

/-- Reads the configuration in the text of a file. -/
def parse (file text : String) : Except Error Config :=
  match Toml.parse text with
  | .error .syntaxError => .error (.syntaxError file)
  | .error (.at line p) => .error (.at file line none (.malformed p))
  | .ok table =>
    match table.entries.foldlM setEntry {} with
    | .ok c => .ok c
    | .error complaint => .error (.at file complaint.line complaint.field complaint.problem)

/-- Reads the configuration in a file, given its text if it exists. -/
def load (file : String) : Option String → Except Error Config
  | none => .error (.noFile file)
  | some text => parse file text

end Config

end GuardedRtl.Sim
