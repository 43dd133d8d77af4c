import GuardedRtl.Text.Number
import GuardedRtl.Toml.Basic

/-! The grammar of documents. Alternatives are tried in order and the first that fits is taken; a
repetition takes as much as it can. Every line feed and every carriage return ends a line. -/

namespace GuardedRtl.Toml

structure Input where
  chars : List Char
  line : Nat

/-- A parser that fails leaves the input as it was. -/
abbrev Parser := StateT Input Option

namespace Parser

def isNewline (c : Char) : Bool := c == '\n' || c == '\r'

/-- One character of a class. -/
def charIf (p : Char → Bool) : Parser Char := fun s =>
  match s.chars with
  | [] => none
  | c :: cs => if p c then some (c, ⟨cs, if isNewline c then s.line + 1 else s.line⟩) else none

def char (c : Char) : Parser Char := charIf (· == c)

def exactly : List Char → Parser Unit
  | [] => pure ()
  | c :: cs => do
    let _ ← char c
    exactly cs

/-- As many characters of a class as there are. -/
def charsWhile (p : Char → Bool) : Parser (List Char) := fun s =>
  let taken := s.chars.takeWhile p
  some (taken, ⟨s.chars.dropWhile p, s.line + taken.countP isNewline⟩)

def charsWhile1 (p : Char → Bool) : Parser (List Char) := do
  let c ← charIf p
  let cs ← charsWhile p
  return c :: cs

/-- Repeats a parser at most `fuel` times. -/
def manyUpTo {α : Type} (p : Parser α) : Nat → Parser (List α)
  | 0 => pure []
  | fuel + 1 => (do
      let a ← p
      let rest ← manyUpTo p fuel
      return a :: rest) <|> pure []

/-- Repeats a parser that takes at least one character. -/
def many {α : Type} (p : Parser α) : Parser (List α) := fun s => manyUpTo p s.chars.length s

def many1 {α : Type} (p : Parser α) : Parser (List α) := do
  let a ← p
  let rest ← many p
  return a :: rest

def skipOptional {α : Type} (p : Parser α) : Parser Unit := (do let _ ← p) <|> pure ()

/-- Succeeds where `p` does not, and takes nothing. -/
def absent {α : Type} (p : Parser α) : Parser Unit := fun s =>
  match p s with
  | some _ => none
  | none => some ((), s)

def line : Parser Nat := fun s => some (s.line, s)

/-- What a parser gives, beside what it takes as it is written. -/
def withSource {α : Type} (p : Parser α) : Parser (α × String) := fun s =>
  match p s with
  | none => none
  | some (a, rest) =>
    some ((a, String.ofList (s.chars.take (s.chars.length - rest.chars.length))), rest)

/-! ### Blanks and comments -/

def isGap (c : Char) : Bool := c == ' ' || c == '\t'

def gap : Parser Unit := do let _ ← charsWhile isGap

def lineGap : Parser Unit := do let _ ← charsWhile fun c => isGap c || isNewline c

def newline : Parser Unit := do let _ ← charsWhile1 isNewline

def isGraphic (c : Char) : Bool := c == '\t' || ' ' ≤ c

def comment : Parser Unit := do
  let _ ← char '#'
  let _ ← charsWhile isGraphic

/-! ### Numbers, dates and truth values -/

def digit : Parser Unit := do let _ ← charIf Text.isDigit

def digits : Nat → Parser (List Char)
  | 0 => pure []
  | n + 1 => do
    let c ← charIf Text.isDigit
    let cs ← digits n
    return c :: cs

/-- A number of so many digits. -/
def number (places : Nat) : Parser Nat := do return Text.digitsValue (← digits places)

def nextDigit : Parser Unit := digit <|> do
  let _ ← char '_'
  digit

def digitGroup : Parser Unit := do
  digit
  let _ ← many nextDigit

def sign : Parser Unit := skipOptional (charIf fun c => c == '-' || c == '+')

def integer : Parser Unit := do
  sign
  (do
    let _ ← charIf fun c => '1' ≤ c && c ≤ '9'
    let _ ← many1 nextDigit) <|> digit

def fraction : Parser Unit := do
  let _ ← char '.'
  digitGroup

def exponent : Parser Unit := do
  let _ ← charIf fun c => c == 'e' || c == 'E'
  sign
  digitGroup

def float : Parser Unit := do
  integer
  (do
    fraction
    skipOptional exponent) <|> exponent

def date : Parser Date := do
  let year ← number 4
  let _ ← char '-'
  let month ← number 2
  let _ ← char '-'
  let day ← number 2
  return ⟨year, month, day⟩

def timeOfDay : Parser TimeOfDay := do
  let hour ← number 2
  let _ ← char ':'
  let minute ← number 2
  let _ ← char ':'
  let second ← number 2
  skipOptional (do
    let _ ← char '.'
    let _ ← many1 digit)
  return ⟨hour, minute, second⟩

def zone : Parser Zone :=
  (do
    let _ ← char 'Z'
    return .utc) <|>
  (do
    let sign ← charIf fun c => c == '-' || c == '+'
    let hours ← number 2
    let _ ← char ':'
    let minutes ← number 2
    return .offset (sign == '-') hours minutes)

def datetime : Parser Datetime :=
  (do
    let d ← date
    let _ ← char 'T'
    let t ← timeOfDay
    return .moment d t (← optional zone)) <|>
  (do return .date (← date)) <|>
  (do return .time (← timeOfDay))

def boolean : Parser Unit := exactly ['t', 'r', 'u', 'e'] <|> exactly ['f', 'a', 'l', 's', 'e']

def scalar (kind : Kind) (p : Parser Unit) : Parser Literal := do
  let (_, source) ← withSource p
  return .scalar kind source

def datetimeScalar : Parser Literal := do
  let (d, source) ← withSource datetime
  return .scalar (.datetime d) source

/-! ### Text -/

def hexDigits : Nat → Nat → Parser Nat
  | 0, n => pure n
  | places + 1, n => do
    let c ← charIf (Text.isDigitOf 16)
    hexDigits places (n * 16 + (Text.anyDigitValue? c).getD 0)

def isShortEscape (c : Char) : Bool := ['b', 't', 'n', 'f', 'r', '"', '/', '\\'].contains c

def escape : Parser Piece := do
  let _ ← char '\\'
  (do return .short (← charIf isShortEscape)) <|>
    (do
      let _ ← char 'u'
      return .code (← hexDigits 4 0)) <|>
    (do
      let _ ← char 'U'
      return .code (← hexDigits 8 0))

def isUnescaped (c : Char) : Bool := ' ' ≤ c && c != '"' && c != '\\'

def basicPiece : Parser Piece := (do return .plain (← charIf isUnescaped)) <|> escape

def plainPieces (cs : List Char) : List Piece := cs.map Piece.plain

/-- A backslash at the end of a line, with the blanks and line ends after it. -/
def continuation : Parser (List Piece) := do
  let _ ← char '\\'
  newline
  lineGap
  return []

def longPieces : Parser (List Piece) :=
  (do return [← basicPiece]) <|> (do return plainPieces (← charsWhile1 isNewline)) <|> continuation

/-- Newlines at the beginning do not belong to a long text. -/
def dropNewlines (ps : List Piece) : List Piece :=
  ps.dropWhile fun p => p == .plain '\n' || p == .plain '\r'

def threeQuotes (c : Char) : Parser Unit := exactly [c, c, c]

def longBasic : Parser (List Piece) := do
  threeQuotes '"'
  let ps ← many longPieces
  threeQuotes '"'
  return dropNewlines ps.flatten

def shortBasic : Parser (List Piece) := do
  let _ ← char '"'
  let ps ← many basicPiece
  let _ ← char '"'
  return ps

def longLiteral : Parser (List Piece) := do
  threeQuotes '\''
  let cs ← many (do
    absent (threeQuotes '\'')
    charIf fun c => isGraphic c || isNewline c)
  threeQuotes '\''
  return dropNewlines (plainPieces cs)

def shortLiteral : Parser (List Piece) := do
  let _ ← char '\''
  let cs ← charsWhile fun c => isGraphic c && c != '\''
  let _ ← char '\''
  return plainPieces cs

def text : Parser Quoted := do
  let ps ← longLiteral <|> shortLiteral <|> longBasic <|> shortBasic
  return ⟨ps, ← line⟩

/-! ### Keys, values and tables -/

def isBare (c : Char) : Bool := c.isAlphanum || c == '-' || c == '_'

def quotedKey : Parser (List Piece) := do
  let _ ← char '"'
  let ps ← many basicPiece
  let _ ← char '"'
  return ps

def key : Parser Key := do
  let ps ← (do return plainPieces (← charsWhile1 isBare)) <|> quotedKey
  return ⟨ps, ← line⟩

def pairOf (value : Parser Literal) : Parser Pair := do
  let k ← key
  gap
  let _ ← char '='
  gap
  let v ← value
  return ⟨k, v, ← line⟩

def arrayOf (value : Parser Literal) : Parser (List Literal) := do
  let filler : Parser Unit := do
    lineGap
    skipOptional comment
    lineGap
  let values : Parser (List Literal) := do
    let first ← value
    let rest ← many (do
      filler
      let _ ← char ','
      filler
      value)
    lineGap
    skipOptional (char ',')
    lineGap
    skipOptional comment
    return first :: rest
  let _ ← char '['
  lineGap
  let vs ← values <|> pure []
  lineGap
  let _ ← char ']'
  return vs

def bracedOf (value : Parser Literal) : Parser Literal := do
  let start ← line
  let _ ← char '\x7b'
  gap
  let ps ← many (do
    let p ← pairOf value
    skipOptional (do
      gap
      let _ ← char ','
      gap)
    return p)
  gap
  let _ ← char '\x7d'
  return .table start ps

/-- A value whose arrays and tables are nested at most `depth` deep. -/
def valueUpTo : Nat → Parser Literal
  | 0 => failure
  | depth + 1 =>
    datetimeScalar <|> scalar .float float <|> scalar .integer integer <|>
      (do return .text (← text)) <|> scalar .boolean boolean <|>
      (do return .array (← arrayOf (valueUpTo depth))) <|> bracedOf (valueUpTo depth)

/-- A value; nothing is nested deeper than the input is long. -/
def value : Parser Literal := fun s => valueUpTo (s.chars.length + 1) s

def pair : Parser Pair := pairOf value

def keys : Parser (List Key) := do
  let first ← key
  let rest ← many (do
    gap
    let _ ← char '.'
    gap
    key)
  return first :: rest

def headerBetween (opening closing : List Char) (repeated : Bool) : Parser Header := do
  exactly opening
  gap
  let (ks, name) ← withSource keys
  gap
  exactly closing
  return ⟨name, ks, ← line, repeated⟩

def header : Parser Header :=
  headerBetween ['['] [']'] false <|> headerBetween ['[', '['] [']', ']'] true

def ending : Parser Unit := do
  gap
  skipOptional comment

/-- What stands between two line ends. A header may have pairs behind it, on its line or on the
following ones. -/
def expression : Parser (List Item) :=
  (do
    gap
    let h ← header
    ending
    let ps ← many (do
      lineGap
      let p ← pair
      ending
      return p)
    return .header h :: ps.map Item.pair) <|>
  (do
    gap
    let p ← pair
    ending
    return [.pair p]) <|>
  (do
    ending
    return [])

def document : Parser (List Item) := do
  let first ← expression
  let rest ← many (do
    newline
    expression)
  skipOptional newline
  return first ++ rest.flatten

end Parser

/-- Reads the items of a document, all of it. -/
def readItems (text : String) : Option (List Item) :=
  match Parser.document ⟨text.toList, 1⟩ with
  | some (items, ⟨[], _⟩) => some items
  | _ => none

end GuardedRtl.Toml
