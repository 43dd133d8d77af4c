import GuardedRtl.Sim.Simulator

/-! A simulator that answers by a script, and keeps what it was asked. -/

namespace GuardedRtl.Sim.Scripted

open Text (Bytes)

/-- An answer in a script. One that hangs keeps the asker waiting. -/
structure Reply where
  lines : List Bytes := []
  error : Option Error := none
  hangs : Bool := false

/-- A script and what has happened. Once the script is over, answers are made up if `automatic`, and
are empty lines otherwise. -/
structure Bench where
  replies : List Reply := []
  automatic : Bool := false
  peeks : List Bytes := []
  closeError : Option Error := none
  commands : Array (Bytes × Nat) := #[]
  files : List (Bytes × Bytes) := []
  loaded : List Bytes := []
  closes : Nat := 0
  stalled : Bool := false

def blank : UInt8 := 32

/-- The lines that a willing simulator gives for a command, and the values left for later. -/
def automaticReply (peeks : List Bytes) (command : Bytes) : List Bytes × List Bytes :=
  let word := Text.decode (command.takeWhile (· != blank))
  if word = "load" then (["compiled", "loaded"], peeks)
  else if word = "step" then (["step took 1 ms"], peeks)
  else if word = "peek" then (["peek " ++ peeks.head?.getD "0"], peeks.tail)
  else ([], peeks)

/-- The file that a command asks to load. -/
def fileOf? (command : Bytes) : Option Bytes :=
  let load : Bytes := "load "
  if load.isPrefixOf command then some (command.drop load.length) else none

namespace Bench

/-- Notes a command, and the file that it loads. -/
def note (b : Bench) (command : Bytes) (expected : Nat) : Bench :=
  let content := do b.files.lookup (← fileOf? command)
  { b with
    commands := b.commands.push (command, expected)
    loaded := b.loaded ++ content.toList }

def exchange (command : Bytes) (expected : Nat) : StateM Bench Response := do
  modify fun b => b.note command expected
  let b ← get
  match b.replies with
  | reply :: rest =>
    set { b with replies := rest, stalled := b.stalled || reply.hangs }
    return ⟨reply.lines, reply.error⟩
  | [] =>
    if b.automatic then
      let (lines, peeks) := automaticReply b.peeks command
      set { b with peeks }
      return ⟨lines, none⟩
    else return ⟨List.replicate expected [], none⟩

def close : StateM Bench (Except Error Unit) := do
  modify fun b => { b with closes := b.closes + 1 }
  match (← get).closeError with
  | some e => return .error e
  | none => return .ok ()

end Bench

def backend : Backend Bench where
  exchange := Bench.exchange
  close := Bench.close

/-- The name that files are handed over by. -/
def fileName : Bytes := "<file>"

def disk : Disk Bench where
  save := fun content => do
    modify fun b => { b with files := (fileName, content) :: b.files }
    return fileName
  remove := fun name => modify fun b => { b with files := b.files.filter (·.1 != name) }

def simulator : Simulator Bench := ⟨backend, disk⟩

/-- A disk whose files nobody looks at. -/
def blindDisk {σ : Type} : Disk σ where
  save := fun _ => pure fileName
  remove := fun _ => pure ()

end GuardedRtl.Sim.Scripted
