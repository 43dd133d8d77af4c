import GuardedRtl.Rtl.Operator
import GuardedRtl.Text.Quoted

/-! What can go wrong with a circuit or a design, and the text that says so. -/

namespace GuardedRtl.Rtl

/-- Why a construction is refused. -/
inductive Reason where
  | missingField
  | typeMismatch
  | duplicateName
  | doubleUpdate
  | doubleReturn
  | missingReturn
  | outOfScope
  | frozen
  | unfinished
  | unknownField
  | unknown (code : Int64)
  deriving DecidableEq

def Reason.ofCode (code : Int64) : Reason :=
  match code.toInt with
  | 0 => .missingField
  | 1 => .typeMismatch
  | 2 => .duplicateName
  | 3 => .doubleUpdate
  | 4 => .doubleReturn
  | 5 => .missingReturn
  | 6 => .outOfScope
  | 7 => .frozen
  | 8 => .unfinished
  | 9 => .unknownField
  | _ => .unknown code

def Reason.text : Reason → String
  | .missingField => "missing value for field"
  | .typeMismatch => "wrong type for field"
  | .duplicateName => "duplicate name"
  | .doubleUpdate => "state element updated more than once"
  | .doubleReturn => "return value already set"
  | .missingReturn => "no return value"
  | .outOfScope => "value used outside of its scope"
  | .frozen => "construction already finished"
  | .unfinished => "construction not finished"
  | .unknownField => "no such field"
  | .unknown code => unnamed "Reason" code

/-- A number out of the range that its place allows. -/
inductive Defect where
  | negativeWidth (width : Int64)
  | negativeCount (count : Int64)
  | negativeArgument (n : Int64)
  | negativeLowBit (lo : Int64)
  | bitsReversed (hi lo : Int64)
  | negativeUnsigned (value : Int64)
  | literalTooWide (value width : Int64)
  | bitOutOfRange (hi width : Int64)
  | headOutOfRange (count width : Int64)
  | tailOutOfRange (count width : Int64)
  deriving DecidableEq

def Defect.text : Defect → String
  | .negativeWidth w => "negative width " ++ decimal w
  | .negativeCount n => "negative element count " ++ decimal n
  | .negativeArgument n => "negative argument " ++ decimal n
  | .negativeLowBit lo => "negative low bit index " ++ decimal lo
  | .bitsReversed hi lo => "high bit index " ++ decimal hi ++ " < low bit index " ++ decimal lo
  | .negativeUnsigned v => "negative value " ++ decimal v ++ " for type UInt"
  | .literalTooWide v w => "value " ++ decimal v ++ " does not fit in " ++ decimal w ++ " bits"
  | .bitOutOfRange hi w => "bit index " ++ decimal hi ++ " out of range for width " ++ decimal w
  | .headOutOfRange n w =>
    "head of " ++ decimal n ++ " bits out of range for width " ++ decimal w
  | .tailOutOfRange n w =>
    "tail of " ++ decimal n ++ " bits out of range for width " ++ decimal w

/-- What an evaluation cannot do. -/
inductive Fault where
  | unknownReference (name : String)
  | literalType (kind : String)
  | signedOperation (op : UnaryOp)
  | resultTooWide (width : Int64)
  | shiftTooWide (width : Int64)
  | unknownOperator (op : BinaryOp)
  deriving DecidableEq

def Fault.text : Fault → String
  | .unknownReference name => "unknown reference " ++ Text.quote name
  | .literalType kind => "unsupported literal type " ++ kind
  | .signedOperation op => "unsupported signed operation " ++ op.name
  | .resultTooWide w => "result width " ++ decimal w ++ " exceeds 64 bits"
  | .shiftTooWide w => "dynamic shift amount too wide (" ++ decimal w ++ " bits)"
  | .unknownOperator op => "unknown operator " ++ op.name

/-- The passes that know the kinds of nodes. -/
inductive Pass where
  | visit | check | print | eval | rebuild | declare | lower
  deriving DecidableEq

def Pass.name : Pass → String
  | .visit => "visit"
  | .check => "check"
  | .print => "print"
  | .eval => "eval"
  | .rebuild => "rebuild"
  | .declare => "declare"
  | .lower => "lower"

/-- `raised` is what a function given by the caller reports; `within` says where its cause arose. -/
inductive Error where
  | construction (node field : String) (reason : Reason)
  | unhandled (pass : Pass) (kind : String)
  | invalid (kind : String) (defect : Defect)
  | evaluation (fault : Fault)
  | noDesign
  | raised (message : String)
  | within (place : String) (cause : Error)
  deriving DecidableEq

def constructionText (node field : String) (reason : Reason) : String :=
  if field = "" then node ++ ": " ++ reason.text
  else node ++ ": " ++ reason.text ++ " `" ++ field ++ "`"

def Error.message : Error → String
  | .construction node field reason => constructionText node field reason
  | .unhandled pass kind => pass.name ++ ": unhandled construct " ++ kind
  | .invalid kind defect => kind ++ ": " ++ defect.text
  | .evaluation fault => "eval: " ++ fault.text
  | .noDesign => "elaborate: nil module"
  | .raised message => message
  | .within place cause => place ++ ": " ++ cause.message

def missing (kind field : String) : Error := .construction kind field .missingField

def mismatch (kind field : String) : Error := .construction kind field .typeMismatch

end GuardedRtl.Rtl
