import GuardedRtl.Rtl.Error

/-! What can go wrong between this program and a simulator, and the message that says so. Commands and
lines are strings of bytes, and so are messages, which repeat them as they are or quoted. -/

namespace GuardedRtl.Sim

open Text (Bytes)

/-- How a response differs from what its command calls for. -/
inductive Mismatch where
  | lineCount (expected got : Nat)
  | noPrompt (line : Bytes)
  | empty
  | noValue (line : Bytes)
  deriving DecidableEq

def Mismatch.text : Mismatch → String
  | .lineCount expected got =>
    "expected " ++ toString expected ++ " response lines, got " ++ toString got
  | .noPrompt line => "unexpected line " ++ Text.quoteBytes line ++ ", want prompt"
  | .empty => "empty response"
  | .noValue line => "no value in response " ++ Text.quoteBytes line

/-- `reported` is what the other side or the system says; `within` tells what its cause put an end to,
and `during` in which command. `outOfSync` is the answer of a connection that has failed in an earlier
command. -/
inductive Error where
  | timeout
  | closed
  | endOfInput
  | lineTooLong
  | reported (message : String)
  | response (command : Bytes) (mismatch : Mismatch)
  | invalidCommand (command : Bytes)
  | malformedRequest (line : Bytes)
  | malformedCount (line : Bytes)
  | circuit (cause : Rtl.Error)
  | within (what : String) (cause : Error)
  | during (command : Bytes) (cause : Error)
  | outOfSync (command : Bytes)
  deriving DecidableEq

def closedText : String := "sim: backend closed"

def Error.message : Error → Bytes
  | .timeout => "sim: read timeout"
  | .closed => closedText
  | .endOfInput => "EOF"
  | .lineTooLong => "bufio.Scanner: token too long"
  | .reported message => message
  | .response command mismatch => "sim: " ++ command ++ ": " ++ mismatch.text
  | .invalidCommand command => "sim: invalid command " ++ Text.quoteBytes command
  | .malformedRequest line => "malformed request " ++ Text.quoteBytes line
  | .malformedCount line => "malformed response count in request " ++ Text.quoteBytes line
  | .circuit cause => cause.message
  | .within what cause => what ++ ": " ++ cause.message
  | .during command cause => "sim: " ++ command ++ ": " ++ cause.message
  | .outOfSync command => "sim: out of sync after " ++ command ++ ": " ++ closedText

/-- The cause behind all that wraps it. -/
def Error.root : Error → Error
  | .within _ cause => cause.root
  | .during _ cause => cause.root
  | .outOfSync _ => .closed
  | e => e

end GuardedRtl.Sim
