import GuardedRtl.Sim.Backend
import GuardedRtl.Sim.Request

/-! A client of a simulator server. A command that fails once it has been sent closes the connection,
and from then on every command is refused. -/

namespace GuardedRtl.Sim

open Text (Bytes)

/-- A connection to a server, from the given address. Reading gives a line, or the error that stands
for its end or for a timeout. -/
structure Connection (σ : Type) where
  address : String
  write : Bytes → StateM σ (Except Error Unit)
  readLine : StateM σ (Except Error Bytes)
  close : StateM σ (Except Error Unit)

/-- What the network says to the use of a connection after it has been closed. -/
def Connection.disused {σ : Type} (c : Connection σ) : Error :=
  .within "set deadline"
    (.within ("set tcp " ++ c.address) (.reported "use of closed network connection"))

/-- A connection in use. `failed` is the first command that failed; `closing` is what closing the
connection gave. -/
structure Remote (σ : Type) where
  peer : σ
  failed : Option Bytes := none
  closing : Option (Except Error Unit) := none

namespace Remote

variable {σ : Type}

/-- Reads `missing` more lines. -/
def readLines (c : Connection σ) (command : Bytes) (expected : Nat) :
    Nat → List Bytes → StateM σ Response
  | 0, lines => return ⟨lines, none⟩
  | missing + 1, lines => do
    match ← c.readLine with
    | .ok line => readLines c command expected missing (lines ++ [line])
    | .error .endOfInput =>
      return ⟨lines, some (.response command (.lineCount expected lines.length))⟩
    | .error e => return ⟨lines, some (.during command e)⟩

/-- Sends a request and reads its response. -/
def converse (c : Connection σ) (command : Bytes) (expected : Nat) : StateM σ Response := do
  match ← c.write (Request.text ⟨command, expected⟩ ++ [lineFeed]) with
  | .error e => return .failed (.during command e)
  | .ok () => readLines c command expected expected []

/-- Lets the peer of a client do something. -/
def onPeer {α : Type} (act : StateM σ α) : StateM (Remote σ) α := fun r =>
  let (a, peer) := act r.peer
  (a, { r with peer })

/-- Closes the connection, the first time only; a second time gives the same answer. -/
def disconnect (c : Connection σ) : StateM (Remote σ) (Except Error Unit) := do
  match (← get).closing with
  | some answer => return answer
  | none =>
    let answer ← onPeer c.close
    modify fun r => { r with closing := some answer }
    return answer

def exchange (c : Connection σ) (command : Bytes) (expected : Nat) :
    StateM (Remote σ) Response := do
  if !isOneLine command then return .failed (.invalidCommand command)
  match (← get).failed with
  | some first => return .failed (.outOfSync first)
  | none =>
    let r ←
      if (← get).closing.isSome then pure (Response.failed c.disused)
      else onPeer (converse c command expected)
    if r.error.isSome then
      modify fun s => { s with failed := some command }
      let _ ← disconnect c
    return r

/-- Closes the connection. The server keeps its simulator running. -/
def close (c : Connection σ) : StateM (Remote σ) (Except Error Unit) := do
  match ← disconnect c with
  | .ok () => return .ok ()
  | .error e => return .error (.within "close connection" e)

def backend (c : Connection σ) : Backend (Remote σ) where
  exchange := exchange c
  close := close c

end Remote

end GuardedRtl.Sim
