import GuardedRtl.Sim.Error
import GuardedRtl.Text.Number

/-! Requests to a simulator server: a command, a bar, and the number of lines of its response. -/

namespace GuardedRtl.Sim

open Text (Bytes)

structure Request where
  command : Bytes
  count : Nat
  deriving DecidableEq

namespace Request

def bar : UInt8 := 124

/-- The bytes before the last bar and after it, if there is a bar. -/
def splitAtLastBar (line : Bytes) : Option (Bytes × Bytes) :=
  match line.reverse.dropWhile (· != bar) with
  | [] => none
  | _ :: before => some (before.reverse, (line.reverse.takeWhile (· != bar)).reverse)

/-- The character of the number of a byte. -/
def byteChar (b : UInt8) : Char := Char.ofNat b.toNat

/-- Reads the number of lines: a decimal integer of 64 bits, not below zero. -/
def readCount? (bs : Bytes) : Option Nat :=
  match Text.readInt? (bs.map byteChar) with
  | some n => if n < 0 then none else some n.toInt.toNat
  | none => none

def parse (line : Bytes) : Except Error Request :=
  match splitAtLastBar line with
  | none => .error (.malformedRequest line)
  | some (before, after) =>
    match readCount? after with
    | none => .error (.malformedCount line)
    | some count => .ok ⟨before, count⟩

/-- The line of a request. -/
def text (r : Request) : Bytes := r.command ++ bar :: Text.bytes (toString r.count)

end Request

end GuardedRtl.Sim
