import GuardedRtl.Log
import GuardedRtl.Sim.Backend
import GuardedRtl.Sim.LineQueue
import GuardedRtl.Sim.Request

/-! A server that shares one simulator between clients. Requests are answered one at a time in the
order in which they arrive. A client gets the lines of the responses to its own requests; its first
bad request, or the first that the simulator fails, ends its session. -/

namespace GuardedRtl.Sim

open Text (Bytes)

namespace Server

/-- How a session ends. -/
inductive Ending where
  | done
  | badRequest (e : Error)
  | simulatorFailure (command : Bytes) (e : Error)
  | writeFailed (e : Error)
  | readFailed (e : Error)
  deriving DecidableEq

/-- What is sent to a client. A connection with a limit breaks at the first write beyond it. -/
structure Output where
  sent : Bytes := []
  limit : Option Nat := none
  deriving DecidableEq

/-- Nothing at all is not written. -/
def Output.write (o : Output) (bs : Bytes) : Except Error Output :=
  if bs = [] then .ok o
  else match o.limit with
    | some limit =>
      if limit < o.sent.length + bs.length then .error (.reported "broken pipe")
      else .ok { o with sent := o.sent ++ bs }
    | none => .ok { o with sent := o.sent ++ bs }

variable {σ : Type}

/-- The response to a request line. -/
def respond (b : Backend σ) (line : Bytes) : StateM σ (Except Ending (List Bytes)) := do
  match Request.parse line with
  | .error e => return .error (.badRequest e)
  | .ok request =>
    match ← (b.ask request.command request.count).run with
    | .error e => return .error (.simulatorFailure request.command e)
    | .ok lines => return .ok lines

/-- Answers request lines up to the first that ends the session. -/
def respondAll (b : Backend σ) : List Bytes → Output → StateM σ (Output × Option Ending)
  | [], out => return (out, none)
  | line :: rest, out => do
    match ← respond b line with
    | .error ending => return (out, some ending)
    | .ok lines =>
      match out.write (frame lines) with
      | .error e => return (out, some (.writeFailed e))
      | .ok out => respondAll b rest out

/-- What a client sends, in chunks, and how it ends. -/
structure Client where
  chunks : List ByteArray
  ending : Error := .endOfInput
  limit : Option Nat := none

/-- Serves one client from beginning to end. -/
def session (b : Backend σ) (client : Client) : StateM σ (Output × Ending) := do
  let (lines, ending) := readLines client.chunks client.ending
  match ← respondAll b lines { limit := client.limit } with
  | (out, some e) => return (out, e)
  | (out, none) => return (out, if ending = .endOfInput then .done else .readFailed ending)

def errorField (e : Error) : String × Log.Datum := ("error", .text e.message)

def Ending.entry : Ending → Log.Entry
  | .done => ⟨.info, "session closed", []⟩
  | .badRequest e => ⟨.error, "bad request", [errorField e]⟩
  | .simulatorFailure command e =>
    ⟨.error, "simulator failure", [("cmd", .text command), errorField e]⟩
  | .writeFailed e => ⟨.error, "write failed", [errorField e]⟩
  | .readFailed e => ⟨.error, "read failed", [errorField e]⟩

/-- What a server has done: the output to each client, the log, and how it ended. -/
structure Report where
  outputs : List Bytes
  log : List Log.Entry
  result : Except Error Unit

/-- Serves clients one after the other, then stops, for the given error if there is one. -/
def serve (b : Backend σ) (address : String) (clients : List Client)
    (acceptError : Option Error) : StateM σ Report := do
  let sessions ← clients.mapM (session b)
  let started : Log.Entry := ⟨.info, "session started", []⟩
  let log := ⟨.info, "serving", [("addr", .text address)]⟩ ::
    sessions.flatMap fun s => [started, s.2.entry]
  let outputs := sessions.map fun s => s.1.sent
  match acceptError with
  | none => return ⟨outputs, log, .ok ()⟩
  | some e =>
    return ⟨outputs, log ++ [⟨.error, "accept failed", [errorField e]⟩], .error (.within "accept" e)⟩

end Server

end GuardedRtl.Sim
