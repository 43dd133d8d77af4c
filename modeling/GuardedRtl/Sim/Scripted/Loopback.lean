import GuardedRtl.Sim.Remote
import GuardedRtl.Sim.Scripted.Backend
import GuardedRtl.Sim.Server

/-! A connection between a client and a server in one place. -/

namespace GuardedRtl.Sim.Scripted

open Text (Bytes)

/-- One client's end: the requests that the server has not seen in full, what the client has not read,
and whether the server has hung up. -/
structure Cable where
  requests : LineReader := {}
  unread : Bytes := []
  hungUp : Bool := false

/-- A server's simulator, and a client that is connected to it. -/
structure Loopback where
  bench : Bench
  cable : Cable := {}

namespace Loopback

/-- The server answers the requests that have arrived. -/
def write (bs : Bytes) : StateM Loopback (Except Error Unit) := do
  let l ← get
  if l.cable.hungUp then return .ok ()
  let r := l.cable.requests.feed maxLineSize bs.toByteArray
  let lines := r.lines.toList.map (·.data.toList)
  let ((out, ending), bench) := (Server.respondAll backend lines {}).run l.bench
  let hungUp := ending.isSome || r.overflowed
  set ({ bench, cable := ⟨{ r with lines := #[] }, l.cable.unread ++ out.sent, hungUp⟩ } : Loopback)
  return .ok ()

/-- The next line. Nothing arrives from a simulator that hangs before the client has given up. -/
def readLine : StateM Loopback (Except Error Bytes) := do
  let l ← get
  if l.bench.stalled then
    set { l with bench := { l.bench with stalled := false } }
    return .error .timeout
  match l.cable.unread.dropWhile (· != lineFeed) with
  | _ :: rest =>
    set { l with cable := { l.cable with unread := rest } }
    return .ok (l.cable.unread.takeWhile (· != lineFeed))
  | [] => return .error (if l.cable.hungUp then .endOfInput else .timeout)

def close : StateM Loopback (Except Error Unit) := do
  modify fun l => { l with cable := { l.cable with hungUp := true } }
  return .ok ()

def connection : Connection Loopback := ⟨"127.0.0.1:0", write, readLine, close⟩

/-- The disk of the server's simulator, which is the client's as well. -/
def remoteDisk : Disk (Remote Loopback) where
  save := fun content => do
    modify fun r =>
      let files := (fileName, content) :: r.peer.bench.files
      { r with peer := { r.peer with bench := { r.peer.bench with files } } }
    return fileName
  remove := fun name => modify fun r =>
    let files := r.peer.bench.files.filter (·.1 != name)
    { r with peer := { r.peer with bench := { r.peer.bench with files } } }

def simulator : Simulator (Remote Loopback) := ⟨Remote.backend connection, remoteDisk⟩

end Loopback

/-- Clients of one server, by name. -/
structure Network where
  bench : Bench
  clients : List (String × Remote Cable) := []

namespace Network

/-- Connects a client. -/
def dial (n : Network) (name : String) : Network :=
  { n with clients := (name, { peer := {} }) :: n.clients }

/-- Lets a client work with the simulator. -/
def onClient {α : Type} (n : Network) (name : String) (act : StateM (Remote Loopback) α) :
    Option (α × Network) := do
  let own ← n.clients.lookup name
  let (a, r) := act.run { own with peer := ⟨n.bench, own.peer⟩ }
  return (a, ⟨r.peer.bench, (name, { r with peer := r.peer.cable }) :: n.clients⟩)

end Network

end GuardedRtl.Sim.Scripted
