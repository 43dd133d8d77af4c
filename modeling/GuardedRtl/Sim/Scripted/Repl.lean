import GuardedRtl.Sim.LineQueue
import GuardedRtl.Sim.Local
import GuardedRtl.Sim.Scripted.Backend

/-! Simulators with streams that answer by a script. -/

namespace GuardedRtl.Sim.Scripted

open Text (Bytes)

/-- The output of a simulator: the bytes of its last line so far, and the lines that wait to be read. -/
structure Stream where
  reader : LineReader := {}
  queue : LineQueue := {}

namespace Stream

def isOpen (s : Stream) : Bool := s.queue.ending.isNone

/-- Ends the output. What comes after the end is lost. -/
def finish (s : Stream) (ending : Error) : Stream :=
  if s.isOpen then
    ⟨{}, (s.queue.putAll (s.reader.finish.map (·.data.toList))).close ending⟩
  else s

def emit (s : Stream) (chunk : ByteArray) : Stream :=
  if s.isOpen then
    let r := s.reader.feed maxLineSize chunk
    let queue := s.queue.putAll (r.lines.toList.map (·.data.toList))
    if r.overflowed then ⟨{}, queue.close .lineTooLong⟩ else ⟨{ r with lines := #[] }, queue⟩
  else s

def read : StateM Stream (Except Error Bytes) := fun s =>
  let (line, queue) := s.queue.get
  (line, { s with queue })

end Stream

/-- What is written, and how the output ends after it if it does. -/
structure Output where
  chunk : ByteArray
  ending : Option Error

def Stream.put (s : Stream) (o : Output) : Stream :=
  let s := s.emit o.chunk
  match o.ending with
  | some e => s.finish e
  | none => s

/-- What follows a write to the input. -/
inductive Reaction where
  | output (o : Output)
  | refuse (e : Error)

/-- A simulator that reacts to what is written to it, whatever it is. `received` has `none` for the
end of the input. -/
structure Repl where
  reactions : List Reaction
  stream : Stream := {}
  closeError : Option Error := none
  received : Array (Option Bytes) := #[]

namespace Repl

def start (startup : Output) (reactions : List Reaction) (closeError : Option Error) : Repl :=
  { reactions, stream := Stream.put {} startup, closeError }

def write (bs : Bytes) : StateM Repl (Except Error Unit) := do
  modify fun r => { r with received := r.received.push (some bs) }
  let r ← get
  match r.reactions with
  | [] => return .ok ()
  | .output o :: rest =>
    set { r with reactions := rest, stream := r.stream.put o }
    return .ok ()
  | .refuse e :: rest =>
    set { r with reactions := rest }
    return .error e

def readLine : StateM Repl (Except Error Bytes) := fun r =>
  let (line, stream) := Stream.read r.stream
  (line, { r with stream })

def closeInput : StateM Repl (Except Error Unit) := do
  modify fun r =>
    { r with received := r.received.push none, stream := r.stream.finish .endOfInput }
  match (← get).closeError with
  | some e => return .error e
  | none => return .ok ()

def terminal : Terminal Repl := ⟨write, readLine, closeInput⟩

/-- Waits until the simulator is ready. Nothing comes after the lines that are there. -/
def await (banner : Bytes) (r : Repl) : Except Error Unit × Repl :=
  Local.awaitBanner terminal banner (r.stream.queue.lines.length + 1) r

end Repl

/-- A simulator that answers commands as its documentation says, but for two it may be told of by
number: before one it exits, and it answers one by an exception. -/
structure Program where
  exitAt : Option Nat := none
  garbageAt : Option Nat := none
  staysOnQuit : Bool := false
  peeks : List Bytes := []
  running : Bool := true
  commands : Array Bytes := #[]
  stream : Stream := {}

namespace Program

def start (p : Program) : Program :=
  { p with stream := p.stream.emit "[info] starting\nRunning treadle.TreadleRepl\n".toUTF8 }

/-- A simulator that exits without a word. -/
def quiet : Program := { running := false, stream := Stream.finish {} .endOfInput }

def exit (p : Program) : Program :=
  { p with running := false, stream := p.stream.finish .endOfInput }

def obey (p : Program) (command : Bytes) : Program :=
  let number := p.commands.size
  let p := { p with commands := p.commands.push command }
  if p.exitAt = some number then p.exit
  else if command = Text.bytes "quit" then if p.staysOnQuit then p else p.exit
  else if p.garbageAt = some number then { p with stream := p.stream.emit "Exception\n".toUTF8 }
  else
    let (lines, peeks) := automaticReply p.peeks command
    let answer := frame (("treadle>> " ++ command) :: lines)
    { p with peeks, stream := p.stream.emit answer.toByteArray }

def write (bs : Bytes) : StateM Program (Except Error Unit) := do
  let p ← get
  if p.running then
    set (p.obey (bs.takeWhile (· != lineFeed)))
    return .ok ()
  else return .error (.reported "write |1: broken pipe")

def readLine : StateM Program (Except Error Bytes) := fun p =>
  let (line, stream) := Stream.read p.stream
  (line, { p with stream })

def closeInput : StateM Program (Except Error Unit) := do
  modify exit
  return .ok ()

def terminal : Terminal Program := ⟨write, readLine, closeInput⟩

def await (banner : Bytes) (p : Program) : Except Error Unit × Program :=
  Local.awaitBanner terminal banner (p.stream.queue.lines.length + 1) p

end Program

end GuardedRtl.Sim.Scripted
