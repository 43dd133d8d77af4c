import GuardedRtl.Cli.Arguments
import GuardedRtl.Gcd
import GuardedRtl.Sim.Config
import GuardedRtl.Sim.Simulator

/-! The commands of the program: `gcd` computes a greatest common divisor in simulation, and `serve`
shares a simulator with remote clients. -/

namespace GuardedRtl.Cli

inductive Failure where
  | usage (e : UsageError)
  | operandCount
  | operand (which : String) (e : Text.NumberError)
  | circuit (e : Rtl.Error)
  | config (e : Sim.Config.Error)
  | simulator (e : Sim.Error)
  | noResult (cycles : Int64)
  | serveRemote
  deriving DecidableEq

def Failure.message : Failure → String
  | .usage e => e.message
  | .operandCount => "expected two operands"
  | .operand which e => which ++ " operand: " ++ e.message
  | .circuit e => e.message
  | .config e => e.message
  | .simulator e => Text.decode e.message
  | .noResult cycles => "no result after " ++ Rtl.decimal cycles ++ " cycles"
  | .serveRemote => "serve needs a local simulator, remove Remote from the configuration"

structure GcdOptions where
  width : Int64
  cycles : Int64
  print : Bool
  operands : List String

inductive Task where
  | gcd (options : GcdOptions)
  | serve (address : String)

/-- A command line: the task, the name of the configuration file if one is given, and whether to log
everything. -/
structure CommandLine where
  config : String
  verbose : Bool
  task : Task

def globalFlags : List Flag := [⟨"config", .text⟩, ⟨"verbose", .switch⟩]

def gcdFlags : List Flag := [⟨"width", .number⟩, ⟨"print", .switch⟩, ⟨"cycles", .number⟩]

def serveFlags : List Flag := [⟨"listen", .text⟩]

def readTask : List String → Except UsageError Task
  | [] => .error .noCommand
  | "gcd" :: rest => do
    let a ← readFlags gcdFlags [] (flagsFirst rest)
    return .gcd ⟨a.number "width" 32, a.number "cycles" 1000, a.isOn "print", a.operands⟩
  | "serve" :: rest => do
    let a ← readFlags serveFlags [] (flagsFirst rest)
    return .serve (a.text "listen" "127.0.0.1:7070")
  | name :: _ => .error (.unknownCommand name)

def CommandLine.parse (arguments : List String) : Except UsageError CommandLine := do
  let a ← readFlags globalFlags [] arguments
  return ⟨a.text "config" "", a.isOn "verbose", ← readTask a.operands⟩

/-- What commands need of the world around them. `start` runs or reaches the simulator that a
configuration names, which then is what `simulator` works on. -/
structure World (σ : Type) where
  readFile : String → StateM σ (Option String)
  start : Sim.Config → Sim.Session σ Unit
  simulator : Sim.Simulator σ
  serve : String → Sim.Session σ Unit

/-- Work that can fail, and leaves the world it has reached. -/
abbrev Action (σ : Type) := ExceptT Failure (StateM σ)

variable {σ : Type}

def simulate {α : Type} (work : Sim.Session σ α) : Action σ α := fun s =>
  let (r, s) := work s
  (r.mapError Failure.simulator, s)

def check {ε α : Type} (wrap : ε → Failure) (r : Except ε α) : Action σ α := fun s =>
  (r.mapError wrap, s)

def loadConfig (w : World σ) (file : String) : Action σ Sim.Config := do
  if file = "" then return {}
  let content ← (w.readFile file : StateM σ _)
  check Failure.config (Sim.Config.load file content)

def readOperand (which text : String) : Action σ Int64 :=
  check (Failure.operand which) (Text.scanInt text.toList)

/-- Waits for the result, for `left` more cycles. -/
def awaitResult (s : Sim.Simulator σ) (cycles : Int64) : Nat → Action σ Int64
  | 0 => throw (.noResult cycles)
  | left + 1 => do
    if (← simulate (s.peek "result_ready")) ≠ 0 then simulate (s.peek "result_value")
    else
      simulate (s.step 1)
      awaitResult s cycles left

/-- Computes a greatest common divisor on a simulator. -/
def computeGcd (s : Sim.Simulator σ) (circuit : Rtl.Circuit) (a b cycles : Int64) :
    Action σ Int64 := do
  let text ← check Failure.circuit circuit.print
  simulate do
    s.load text
    s.poke Rtl.resetName 1
    s.step 1
    s.poke Rtl.resetName 0
    s.poke "start_a" a
    s.poke "start_b" b
    s.poke "start_enable" 1
    s.step 1
    s.poke "start_enable" 0
  awaitResult s cycles cycles.toInt.toNat

/-- Does some work on the simulator and stops it, however the work ends. -/
def thenStop {α : Type} (w : World σ) (work : Action σ α) : Action σ α := fun s =>
  let (r, s) := work s
  let (_, s) := w.simulator.stop s
  (r, s)

/-- Runs `gcd`, and gives what it prints. -/
def runGcd (w : World σ) (config : String) (o : GcdOptions) : Action σ String := do
  match o.operands with
  | [first, second] =>
    let a ← readOperand "first" first
    let b ← readOperand "second" second
    let circuit ← check Failure.circuit (Gcd.circuit o.width)
    if o.print then check Failure.circuit circuit.print
    else
      let c ← loadConfig w config
      simulate (w.start c)
      let result ← thenStop w (computeGcd w.simulator circuit a b o.cycles)
      return Rtl.decimal result ++ "\n"
  | _ => throw .operandCount

/-- Runs `serve` until the server is stopped. -/
def runServe (w : World σ) (config address : String) : Action σ String := do
  let c ← loadConfig w config
  if c.remote ≠ "" then throw .serveRemote
  simulate (w.start c)
  thenStop w (simulate (w.serve address))
  return ""

/-- Runs a command line, and gives what it prints. -/
def run (w : World σ) (arguments : List String) : Action σ String := do
  let line ← check Failure.usage (CommandLine.parse arguments)
  match line.task with
  | .gcd o => runGcd w line.config o
  | .serve address => runServe w line.config address

end GuardedRtl.Cli
