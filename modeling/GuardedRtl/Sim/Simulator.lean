import GuardedRtl.Rtl.Print
import GuardedRtl.Rtl.Shorthand
import GuardedRtl.Sim.Backend
import GuardedRtl.Text.Number

/-! The commands of the simulator. -/

namespace GuardedRtl.Sim

open Text (Bytes)

/-- A place for files that the simulator can read. A file is known by the name that saving it gives. -/
structure Disk (σ : Type) where
  save : Bytes → Session σ Bytes
  remove : Bytes → StateM σ Unit

/-- A backend with a disk that it reads circuits from. -/
structure Simulator (σ : Type) where
  backend : Backend σ
  disk : Disk σ

namespace Simulator

variable {σ : Type}

/-- Loads a circuit in its printed form. The file it is handed over in is gone afterwards. -/
def load (s : Simulator σ) (circuit : Bytes) : Session σ Unit := do
  let name ← tryCatch (s.disk.save (circuit ++ "\n")) fun e => throw (.within "load" e)
  tryCatch (do let _ ← s.backend.ask ("load " ++ name) 2) fun e => do
    s.disk.remove name
    throw e
  s.disk.remove name

/-- The value in a response line: its last word. -/
def readValue (command line : Bytes) : Except Error Int64 :=
  match (Text.words (Text.decode line).toList).getLast? with
  | none => .error (.response command .empty)
  | some word =>
    match Text.readInt? word with
    | none => .error (.response command (.noValue line))
    | some n => .ok n

/-- The current value of a signal. -/
def peek (s : Simulator σ) (signal : Bytes) : Session σ Int64 := do
  let command : Bytes := "peek " ++ signal
  let lines ← s.backend.ask command 1
  match readValue command (lines.head?.getD []) with
  | .ok n => return n
  | .error e => throw e

/-- Sets an input signal. -/
def poke (s : Simulator σ) (signal : Bytes) (value : Int64) : Session σ Unit := do
  let _ ← s.backend.ask ("poke " ++ signal ++ " " ++ Rtl.decimal value) 0

/-- Goes on by a number of clock cycles. -/
def step (s : Simulator σ) (cycles : Int64) : Session σ Unit := do
  let _ ← s.backend.ask ("step " ++ Rtl.decimal cycles) 1

def stop (s : Simulator σ) : Session σ Unit := s.backend.close

/-- Loads a circuit, resets it for one cycle, and runs it for a number of cycles. -/
def run (s : Simulator σ) (circuit : Rtl.Circuit) (cycles : Int64) : Session σ Unit := do
  match circuit.print with
  | .error e => throw (.circuit e)
  | .ok text =>
    s.load text
    s.poke Rtl.resetName 1
    s.step 1
    s.poke Rtl.resetName 0
    s.step cycles

end Simulator

end GuardedRtl.Sim
