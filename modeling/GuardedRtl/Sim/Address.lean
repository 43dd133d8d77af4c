import GuardedRtl.Text.Number

/-! Addresses of servers: a host and a port with a colon between them. A host that has colons itself
stands in brackets. -/

namespace GuardedRtl.Sim

structure Address where
  host : String
  port : Nat
  deriving DecidableEq

namespace Address

inductive ParseError where
  | missingPort (text : String)
  | tooManyColons (text : String)
  | missingBracket (text : String)
  | strayBracket (bracket : Char) (text : String)
  | invalidPort (port : String)
  | unknownPort (port : String)
  deriving DecidableEq

def ParseError.message : ParseError → String
  | .missingPort text => "address " ++ text ++ ": missing port in address"
  | .tooManyColons text => "address " ++ text ++ ": too many colons in address"
  | .missingBracket text => "address " ++ text ++ ": missing ']' in address"
  | .strayBracket bracket text =>
    "address " ++ text ++ ": unexpected '" ++ String.singleton bracket ++ "' in address"
  | .invalidPort port => "address " ++ port ++ ": invalid port"
  | .unknownPort port => "lookup tcp/" ++ port ++ ": unknown port"

/-- The port that a text stands for; no text at all stands for any port. -/
def readPort (cs : List Char) : Except ParseError Nat :=
  let (negative, digits) := Text.splitSign cs
  let n := Text.digitsValue digits
  if !digits.all Text.isDigit then .error (.unknownPort (String.ofList cs))
  else if 65535 < n || (negative && n != 0) then .error (.invalidPort (String.ofList cs))
  else .ok n

/-- The host and the port of an address that starts with a bracket, which is left out in `cs`. -/
def splitBracketed (text : String) (cs : List Char) :
    Except ParseError (List Char × List Char) :=
  let host := cs.takeWhile (· != ']')
  match cs.dropWhile (· != ']') with
  | [] => .error (.missingBracket text)
  | [_] => .error (.missingPort text)
  | _ :: ':' :: port =>
    if port.contains ':' then .error (.tooManyColons text)
    else if host.contains '[' || port.contains '[' then .error (.strayBracket '[' text)
    else if port.contains ']' then .error (.strayBracket ']' text)
    else .ok (host, port)
  | _ => .error (.missingPort text)

def splitPlain (text : String) (cs : List Char) : Except ParseError (List Char × List Char) :=
  let host := cs.takeWhile (· != ':')
  let port := (cs.dropWhile (· != ':')).drop 1
  if port.contains ':' then .error (.tooManyColons text)
  else if cs.contains '[' then .error (.strayBracket '[' text)
  else if cs.contains ']' then .error (.strayBracket ']' text)
  else .ok (host, port)

def parse (text : String) : Except ParseError Address := do
  let cs := text.toList
  if !cs.contains ':' then throw (.missingPort text)
  let (host, port) ← match cs with
    | '[' :: cs => splitBracketed text cs
    | _ => splitPlain text cs
  return ⟨String.ofList host, ← readPort port⟩

def text (a : Address) : String :=
  (if a.host.toList.contains ':' then "[" ++ a.host ++ "]" else a.host) ++ ":" ++ toString a.port

end Address

end GuardedRtl.Sim
