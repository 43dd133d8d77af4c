import GuardedRtl.Sim.Simulator

/-! A simulator that reads commands from its input and answers each on its output, with a line that
starts with a prompt and then the lines of the response.

A command that fails once it has been sent leaves output behind that belongs to no later command.
From then on every command is refused. -/

namespace GuardedRtl.Sim

open Text (Bytes)

/-- The streams of a running simulator. Reading gives a line, or the error that stands for its end or
for a timeout. -/
structure Terminal (σ : Type) where
  write : Bytes → StateM σ (Except Error Unit)
  readLine : StateM σ (Except Error Bytes)
  closeInput : StateM σ (Except Error Unit)

/-- A simulator in use. `failed` is the first command that failed. -/
structure Local (σ : Type) where
  peer : σ
  closed : Bool := false
  failed : Option Bytes := none

/-- Tells whether a string of bytes holds another. -/
def occursIn (part : Bytes) : Bytes → Bool
  | [] => part.isEmpty
  | b :: bs => part.isPrefixOf (b :: bs) || occursIn part bs

namespace Local

variable {σ : Type}

/-- Waits for the line that tells that the simulator is ready, for `patience` lines at most. -/
def awaitBanner (t : Terminal σ) (banner : Bytes) : Nat → StateM σ (Except Error Unit)
  | 0 => return .error (.within "waiting for simulator banner" .timeout)
  | patience + 1 => do
    match ← t.readLine with
    | .error e => return .error (.within "waiting for simulator banner" e)
    | .ok line =>
      if occursIn banner line then return .ok () else awaitBanner t banner patience

/-- Reads a line of a response to which `got` lines have come so far. -/
def readResponse (t : Terminal σ) (command : Bytes) (expected got : Nat) :
    StateM σ (Except Error Bytes) := do
  match ← t.readLine with
  | .ok line => return .ok line
  | .error .endOfInput => return .error (.response command (.lineCount expected got))
  | .error e => return .error (.during command e)

/-- Reads `missing` more lines. -/
def readLines (t : Terminal σ) (command : Bytes) (expected : Nat) :
    Nat → List Bytes → StateM σ Response
  | 0, lines => return ⟨lines, none⟩
  | missing + 1, lines => do
    match ← readResponse t command expected lines.length with
    | .error e => return ⟨lines, some e⟩
    | .ok line => readLines t command expected missing (lines ++ [line])

/-- Sends a command and reads its response. -/
def converse (t : Terminal σ) (prompt command : Bytes) (expected : Nat) : StateM σ Response := do
  match ← t.write (command ++ [lineFeed]) with
  | .error e => return .failed (.during command e)
  | .ok () =>
    match ← readResponse t command expected 0 with
    | .error e => return .failed e
    | .ok line =>
      if prompt.isPrefixOf line then readLines t command expected expected []
      else return .failed (.response command (.noPrompt line))

/-- Lets the peer of a simulator do something. -/
def onPeer {α : Type} (act : StateM σ α) : StateM (Local σ) α := fun l =>
  let (a, peer) := act l.peer
  (a, { l with peer })

def exchange (t : Terminal σ) (prompt command : Bytes) (expected : Nat) :
    StateM (Local σ) Response := do
  if !isOneLine command then return .failed (.invalidCommand command)
  let l ← get
  if l.closed then return .failed .closed
  match l.failed with
  | some first => return .failed (.outOfSync first)
  | none =>
    let r ← onPeer (converse t prompt command expected)
    if r.error.isSome then modify fun l => { l with failed := some command }
    return r

/-- Asks the simulator to quit and closes its input; a second time does nothing. -/
def close (t : Terminal σ) : StateM (Local σ) (Except Error Unit) := do
  let l ← get
  if l.closed then return .ok ()
  set { l with closed := true }
  let _ ← onPeer (t.write "quit\n")
  match ← onPeer t.closeInput with
  | .ok () => return .ok ()
  | .error e => return .error (.within "close simulator input" e)

def backend (t : Terminal σ) (prompt : Bytes) : Backend (Local σ) where
  exchange := exchange t prompt
  close := close t

end Local

end GuardedRtl.Sim
