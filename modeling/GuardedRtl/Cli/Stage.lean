import GuardedRtl.Cli.Command
import GuardedRtl.Sim.Address
import GuardedRtl.Sim.Scripted.Loopback
import GuardedRtl.Sim.Scripted.Repl

/-! A world for commands in which everything is scripted: the files, the programs that can be run, the
servers that can be reached and the clients that call. -/

namespace GuardedRtl.Cli

open Sim Sim.Scripted
open Text (Bytes)

/-- The simulator in use. -/
inductive Running where
  | nothing
  | program (l : Local Program) (prompt : Bytes)
  | server (r : Remote Loopback)

structure Stage where
  files : List (String × String) := []
  directories : List String := []
  programs : List (String × Program) := []
  servers : List (String × Bench) := []
  callers : List Server.Client := []
  running : Running := .nothing
  received : List Bytes := []

namespace Stage

def exchange (command : Bytes) (expected : Nat) : StateM Stage Response := do
  let s ← get
  match s.running with
  | .nothing => return .failed .closed
  | .program l prompt =>
    let (r, l) := Local.exchange Program.terminal prompt command expected l
    set { s with running := .program l prompt }
    return r
  | .server remote =>
    let (r, remote) := Remote.exchange Loopback.connection command expected remote
    set { s with running := .server remote }
    return r

def close : StateM Stage (Except Error Unit) := do
  let s ← get
  match s.running with
  | .nothing => return .ok ()
  | .program l prompt =>
    let (r, l) := Local.close Program.terminal l
    set { s with running := .program l prompt }
    return r
  | .server remote =>
    let (r, remote) := Remote.close Loopback.connection remote
    set { s with running := .server remote }
    return r

def backend : Backend Stage := ⟨exchange, close⟩

/-- Finds the program that a configuration names, or says why it cannot be run. A name without a
slash is looked up before the directory is entered, any other afterwards. -/
def findProgram (s : Stage) (c : Config) : Except String Program :=
  match s.programs.lookup c.command, c.command.toList.contains '/' with
  | none, false =>
    if c.command = "" then .error "exec: no command"
    else .error ("exec: " ++ Text.quote c.command ++ ": executable file not found in $PATH")
  | found, _ =>
    if c.dir ≠ "" ∧ c.dir ∉ s.directories then
      .error ("chdir " ++ c.dir ++ ": no such file or directory")
    else match found with
      | some p => .ok p
      | none =>
        if c.command ∈ s.directories then .error ("fork/exec " ++ c.command ++ ": permission denied")
        else .error ("fork/exec " ++ c.command ++ ": no such file or directory")

/-- Why an address without a server cannot be reached. -/
def unreachable (address : String) : String :=
  match Address.parse address with
  | .error e => "dial tcp: " ++ e.message
  | .ok a => "dial tcp " ++ a.text ++ ": connect: network is unreachable"

def launch (c : Config) : Session Stage Unit := do
  let s ← get
  match s.findProgram c with
  | .error reason => throw (.within ("failed to start " ++ c.command) (.reported reason))
  | .ok p =>
    let (ready, p) := p.await c.banner
    set { s with running := .program { peer := p } c.prompt }
    match ready with
    | .ok () => return ()
    | .error e => throw e

def dial (c : Config) : Session Stage Unit := do
  let s ← get
  match s.servers.lookup c.remote with
  | some bench => set { s with running := .server { peer := { bench } } }
  | none =>
    throw (.within ("dial simulator server " ++ c.remote) (.reported (unreachable c.remote)))

/-- Serves the clients that call, one after the other. -/
def serve (address : String) : Session Stage Unit := do
  if let .error e := Address.parse address then
    throw (.within "listen" (.reported ("listen tcp: " ++ e.message)))
  let s ← get
  let report ← (Server.serve backend address s.callers none : StateM Stage _)
  modify fun s => { s with received := report.outputs }

def world : World Stage where
  readFile := fun name => do return (← get).files.lookup name
  start := fun c => if c.remote ≠ "" then dial c else launch c
  simulator := ⟨backend, blindDisk⟩
  serve := serve

/-- The commands that a program got. -/
def programCommands (s : Stage) : Array Bytes :=
  match s.running with
  | .program l _ => l.peer.commands
  | _ => #[]

/-- The commands that a server's simulator got, with the numbers of lines expected. -/
def serverCommands (s : Stage) : Array (Bytes × Nat) :=
  match s.running with
  | .server r => r.peer.bench.commands
  | _ => #[]

end Stage

end GuardedRtl.Cli
