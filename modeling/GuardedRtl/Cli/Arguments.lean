import GuardedRtl.Text.Number
import GuardedRtl.Text.Quoted

/-! The arguments of the command line: flags with their values, and the rest. -/

namespace GuardedRtl.Cli

inductive FlagKind where
  | switch | number | text
  deriving DecidableEq

inductive FlagValue where
  | switch (on : Bool)
  | number (n : Int64)
  | text (s : String)
  deriving DecidableEq

structure Flag where
  name : String
  kind : FlagKind

/-- Why arguments are not understood. -/
inductive UsageError where
  | badFlag (argument : String)
  | unknownFlag (name : String)
  | noValue (name : String)
  | badValue (name value : String)
  | badSwitch (name value : String)
  | noCommand
  | unknownCommand (name : String)
  deriving DecidableEq

def UsageError.message : UsageError → String
  | .badFlag argument => "bad flag syntax: " ++ argument
  | .unknownFlag name => "flag provided but not defined: -" ++ name
  | .noValue name => "flag needs an argument: -" ++ name
  | .badValue name value =>
    "invalid value " ++ Text.quote value ++ " for flag -" ++ name ++ ": parse error"
  | .badSwitch name value =>
    "invalid boolean value " ++ Text.quote value ++ " for -" ++ name ++ ": parse error"
  | .noCommand => "no command"
  | .unknownCommand name => "No help topic for '" ++ name ++ "'"

def readSwitch? (s : String) : Option Bool :=
  if s ∈ ["1", "t", "T", "true", "TRUE", "True"] then some true
  else if s ∈ ["0", "f", "F", "false", "FALSE", "False"] then some false
  else none

/-- What an argument is: a flag with the value that follows an equals sign, the end of all flags, or
something else. -/
inductive Argument where
  | flag (name : String) (value : Option String)
  | endOfFlags
  | badFlag
  | operand

def flagBody (cs : List Char) : Argument :=
  match cs with
  | [] => .badFlag
  | '-' :: _ => .badFlag
  | '=' :: _ => .badFlag
  | c :: cs =>
    let name := String.ofList (c :: cs.takeWhile (· != '='))
    match cs.dropWhile (· != '=') with
    | [] => .flag name none
    | _ :: value => .flag name (some (String.ofList value))

/-- One dash or two make a flag; two alone end the flags, and one alone is no flag. -/
def classify (argument : String) : Argument :=
  match argument.toList with
  | ['-', '-'] => .endOfFlags
  | '-' :: '-' :: cs => flagBody cs
  | ['-'] => .operand
  | '-' :: cs => flagBody cs
  | _ => .operand

def readFlagValue (f : Flag) (value : String) : Except UsageError FlagValue :=
  match f.kind with
  | .text => .ok (.text value)
  | .number =>
    match Text.readPrefixed? value.toList with
    | some n => .ok (.number n)
    | none => .error (.badValue f.name value)
  | .switch =>
    match readSwitch? value with
    | some on => .ok (.switch on)
    | none => .error (.badSwitch f.name value)

/-- Flags that were given, the last first, and the arguments after them. -/
structure Arguments where
  given : List (String × FlagValue) := []
  operands : List String := []

/-- Reads flags up to the first argument that is none. A flag without an equals sign takes the next
argument as its value, unless it is a switch. -/
def readFlags (known : List Flag) (given : List (String × FlagValue)) :
    List String → Except UsageError Arguments
  | [] => .ok ⟨given, []⟩
  | [argument] =>
    match classify argument with
    | .operand => .ok ⟨given, [argument]⟩
    | .endOfFlags => .ok ⟨given, []⟩
    | .badFlag => .error (.badFlag argument)
    | .flag name value =>
      match known.find? (·.name = name), value with
      | none, _ => .error (.unknownFlag name)
      | some f, some v => do return ⟨(name, ← readFlagValue f v) :: given, []⟩
      | some f, none =>
        if f.kind = .switch then .ok ⟨(name, .switch true) :: given, []⟩
        else .error (.noValue name)
  | argument :: next :: rest =>
    match classify argument with
    | .operand => .ok ⟨given, argument :: next :: rest⟩
    | .endOfFlags => .ok ⟨given, next :: rest⟩
    | .badFlag => .error (.badFlag argument)
    | .flag name value =>
      match known.find? (·.name = name), value with
      | none, _ => .error (.unknownFlag name)
      | some f, some v => do readFlags known ((name, ← readFlagValue f v) :: given) (next :: rest)
      | some f, none =>
        if f.kind = .switch then readFlags known ((name, .switch true) :: given) (next :: rest)
        else do readFlags known ((name, ← readFlagValue f next) :: given) rest

def isFlagLike (argument : String) : Bool := argument != "-" && argument.toList.head? == some '-'

/-- Puts the arguments before the first flag behind all others, up to the end of the flags. -/
def flagsFirst (arguments : List String) : List String :=
  let flagArea := arguments.takeWhile (· != "--")
  let rest := arguments.dropWhile (· != "--")
  let operands := flagArea.takeWhile fun a => !isFlagLike a
  let flags := flagArea.dropWhile fun a => !isFlagLike a
  if flags.isEmpty then arguments else flags ++ operands ++ rest

namespace Arguments

def isOn (a : Arguments) (name : String) : Bool := a.given.lookup name == some (.switch true)

def number (a : Arguments) (name : String) (default : Int64) : Int64 :=
  match a.given.lookup name with
  | some (.number n) => n
  | _ => default

def text (a : Arguments) (name default : String) : String :=
  match a.given.lookup name with
  | some (.text s) => s
  | _ => default

end Arguments

end GuardedRtl.Cli
