import GuardedRtl.Sim.Error
import GuardedRtl.Text.Bytes

/-! Lines in a stream of bytes. A line ends with a line feed, which does not belong to it, nor does
one carriage return before it. Bytes arrive in chunks; where a stream is cut does not matter. -/

namespace GuardedRtl.Sim

open Text (Bytes)

def lineFeed : UInt8 := 10

def carriageReturn : UInt8 := 13

/-- Lines as they are sent. -/
def frame (lines : List Bytes) : Bytes := lines.flatMap (· ++ [lineFeed])

/-- How many bytes without a line feed are too many for one line. -/
def maxLineSize : Nat := Nat.pow 2 24

/-- A stream read so far: the lines that have ended, and the bytes of the one that has not. A stream
with too long a line is read no further. -/
structure LineReader where
  lines : Array ByteArray := #[]
  pending : ByteArray := .empty
  overflowed : Bool := false

def dropCarriageReturn (line : ByteArray) : ByteArray :=
  if h : 0 < line.size then
    if line.get (line.size - 1) (by omega) = carriageReturn then line.extract 0 (line.size - 1)
    else line
  else line

namespace LineReader

/-- Reads one byte. -/
def push (limit : Nat) (r : LineReader) (b : UInt8) : LineReader :=
  match r with
  | ⟨lines, pending, overflowed⟩ =>
    if overflowed then ⟨lines, pending, overflowed⟩
    else if b = lineFeed then ⟨lines.push (dropCarriageReturn pending), .empty, false⟩
    else
      let pending := pending.push b
      if limit ≤ pending.size then ⟨lines, pending, true⟩ else ⟨lines, pending, false⟩

/-- Reads the byte at position `i` of a chunk. -/
def pushAt (limit : Nat) (r : LineReader) (chunk : ByteArray) (i : Nat) (h : i < chunk.size) :
    LineReader :=
  push limit r (chunk.get i h)

/-- Reads the bytes of a chunk from position `i` on. -/
def feedFrom (limit : Nat) (r : LineReader) (chunk : ByteArray) (i : Nat) : LineReader :=
  if h : i < chunk.size then feedFrom limit (pushAt limit r chunk i h) chunk (i + 1) else r
termination_by chunk.size - i

/-- Reads a chunk. -/
def feed (limit : Nat) (r : LineReader) (chunk : ByteArray) : LineReader := feedFrom limit r chunk 0

/-- The lines at the end of the stream: what is left is a line too, unless there is nothing. -/
def finish (r : LineReader) : List ByteArray :=
  if r.overflowed || r.pending.size = 0 then r.lines.toList
  else r.lines.toList ++ [dropCarriageReturn r.pending]

end LineReader

/-- The lines of a stream, and the error that ends it: the given one, or that of too long a line. -/
def readLines (chunks : List ByteArray) (ending : Error) : List Bytes × Error :=
  let r := chunks.foldl (LineReader.feed maxLineSize) {}
  (r.finish.map (·.data.toList), if r.overflowed then .lineTooLong else ending)

end GuardedRtl.Sim
