import GuardedRtl.Sim.Lines

/-! A queue between one that produces lines and one that consumes them. -/

namespace GuardedRtl.Sim

open Text (Bytes)

/-- Lines that wait to be taken, and the error that ends the queue once it is closed. -/
structure LineQueue where
  lines : List Bytes := []
  ending : Option Error := none
  deriving DecidableEq

namespace LineQueue

def put (q : LineQueue) (line : Bytes) : LineQueue := { q with lines := q.lines ++ [line] }

def putAll (q : LineQueue) (lines : List Bytes) : LineQueue := { q with lines := q.lines ++ lines }

/-- Ends the queue. Lines that wait can still be taken. -/
def close (q : LineQueue) (ending : Error) : LineQueue := { q with ending := some ending }

/-- Takes the next line. Where none waits and none can come any more, the error that ends the queue
is the answer; where one could still come, the wait ends in a timeout. -/
def get (q : LineQueue) : Except Error Bytes × LineQueue :=
  match q.lines, q.ending with
  | line :: rest, _ => (.ok line, { q with lines := rest })
  | [], some ending => (.error ending, q)
  | [], none => (.error .timeout, q)

/-- Puts the lines of a stream into the queue, and closes it when the stream ends. -/
def pump (q : LineQueue) (chunks : List ByteArray) (ending : Error) : LineQueue :=
  let (lines, ending) := readLines chunks ending
  (q.putAll lines).close ending

end LineQueue

end GuardedRtl.Sim
