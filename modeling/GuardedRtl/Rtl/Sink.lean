import GuardedRtl.Rtl.Print

/-! A place to write circuits to that takes a limited number of bytes. -/

namespace GuardedRtl.Rtl

structure Sink where
  written : ByteArray := .empty
  limit : Option Nat := none

/-- Writes a text; of one that does not fit, the part that does. -/
def Sink.put (text : String) : ExceptT Error (StateM Sink) Unit := do
  let s ← getThe Sink
  let bytes := text.toUTF8
  match s.limit with
  | none => set { s with written := s.written ++ bytes }
  | some limit =>
    let room := limit - s.written.size
    set { s with written := s.written ++ bytes.extract 0 room }
    if room < bytes.size then throw (.raised "disk full")

/-- What writing a circuit leaves, and how it ends. -/
def Circuit.writeWithin (limit : Option Nat) (c : Circuit) : Except Error Unit × ByteArray :=
  let (r, s) := (c.write Sink.put).run.run { limit }
  (r, s.written)

end GuardedRtl.Rtl
