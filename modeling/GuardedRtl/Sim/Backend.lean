import GuardedRtl.Sim.Lines

/-! Ways to reach a simulator. `σ` is the state of whatever is on the other side. -/

namespace GuardedRtl.Sim

open Text (Bytes)

/-- The lines that came back for a command, with the error that cut them short if there is one. -/
structure Response where
  lines : List Bytes
  error : Option Error := none
  deriving DecidableEq

def Response.failed (e : Error) : Response := ⟨[], some e⟩

/-- Sends a command and waits for the given number of lines, or says goodbye. -/
structure Backend (σ : Type) where
  exchange : Bytes → Nat → StateM σ Response
  close : StateM σ (Except Error Unit)

/-- What works on a simulator: steps that can fail, and leave the state they have reached. -/
abbrev Session (σ : Type) := ExceptT Error (StateM σ)

/-- Exchanges a command for exactly the expected number of lines. -/
def Backend.ask {σ : Type} (b : Backend σ) (command : Bytes) (expected : Nat) :
    Session σ (List Bytes) := do
  let r ← (b.exchange command expected : StateM σ Response)
  match r.error with
  | some e => throw e
  | none =>
    if r.lines.length = expected then return r.lines
    else throw (.response command (.lineCount expected r.lines.length))

/-- A command is one line. -/
def isOneLine (command : Bytes) : Bool := command.all fun b => b != carriageReturn && b != lineFeed

end GuardedRtl.Sim
