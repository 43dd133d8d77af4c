import GuardedRtl.Text.Bytes

/-! Log entries: a level, a message and named fields. -/

namespace GuardedRtl.Log

inductive Level where
  | debug | info | error
  deriving DecidableEq

inductive Datum where
  | text (bs : Text.Bytes)
  | number (n : Nat)
  deriving DecidableEq

structure Entry where
  level : Level
  message : String
  fields : List (String × Datum)
  deriving DecidableEq

def Level.name : Level → String
  | .debug => "debug"
  | .info => "info"
  | .error => "error"

end GuardedRtl.Log
