/-! Numbers in text: plain decimal integers, and integers written with a base prefix and underscores
between their digits. Both are limited to 64 bits with a sign. -/

namespace GuardedRtl.Text

def isDigit (c : Char) : Bool := '0' ≤ c && c ≤ '9'

def digitValue (c : Char) : Nat := c.toNat - '0'.toNat

/-- The number that decimal digits denote. -/
def digitsValue (cs : List Char) : Nat := cs.foldl (fun n c => n * 10 + digitValue c) 0

/-- The number, if 64 bits with a sign hold it. -/
def int64? (negative : Bool) (magnitude : Nat) : Option Int64 :=
  if negative then
    if magnitude ≤ Nat.pow 2 63 then some (Int64.ofInt (-magnitude)) else none
  else if magnitude < Nat.pow 2 63 then some (Int64.ofNat magnitude) else none

/-- Splits off a sign, and says whether it is a minus. -/
def splitSign : List Char → Bool × List Char
  | '-' :: cs => (true, cs)
  | '+' :: cs => (false, cs)
  | cs => (false, cs)

/-- Reads an optional sign and one or more decimal digits. -/
def readInt? (cs : List Char) : Option Int64 :=
  let (negative, digits) := splitSign cs
  if digits.isEmpty || !digits.all isDigit then none
  else int64? negative (digitsValue digits)

/-- The blanks of Unicode. -/
def isBlank (c : Char) : Bool :=
  let n := c.toNat
  (0x09 ≤ n && n ≤ 0x0d) || n == 0x20 || n == 0x85 || n == 0xa0 || n == 0x1680 ||
    (0x2000 ≤ n && n ≤ 0x200a) || n == 0x2028 || n == 0x2029 || n == 0x202f || n == 0x205f ||
    n == 0x3000

/-- Puts a word in front of others, unless it is empty. -/
def consWord (word : List Char) (rest : List (List Char)) : List (List Char) :=
  if word.isEmpty then rest else word :: rest

/-- The parts of a text between its blanks. -/
def words (cs : List Char) : List (List Char) :=
  let (first, rest) := cs.foldr (fun c (word, rest) =>
    if isBlank c then ([], consWord word rest) else (c :: word, rest)) ([], [])
  consWord first rest

/-- Why a text is not a number. -/
inductive NumberError where
  | noInput
  | notInteger
  | malformed (token : String)
  | outOfRange (token : String)
  deriving DecidableEq

/-- The value of a digit in bases up to 36. -/
def anyDigitValue? (c : Char) : Option Nat :=
  if isDigit c then some (digitValue c)
  else if 'a' ≤ c && c ≤ 'z' then some (c.toNat - 'a'.toNat + 10)
  else if 'A' ≤ c && c ≤ 'Z' then some (c.toNat - 'A'.toNat + 10)
  else none

def isDigitOf (base : Nat) (c : Char) : Bool :=
  match anyDigitValue? c with
  | some d => d < base
  | none => false

/-- The base that the prefix of an unsigned number stands for, the prefix and the rest. A zero alone
stands for base eight. -/
def splitBase : List Char → Nat × List Char × List Char
  | '0' :: 'b' :: cs => (2, ['0', 'b'], cs)
  | '0' :: 'B' :: cs => (2, ['0', 'B'], cs)
  | '0' :: 'o' :: cs => (8, ['0', 'o'], cs)
  | '0' :: 'O' :: cs => (8, ['0', 'O'], cs)
  | '0' :: 'x' :: cs => (16, ['0', 'x'], cs)
  | '0' :: 'X' :: cs => (16, ['0', 'X'], cs)
  | '0' :: cs => (8, ['0'], cs)
  | cs => (10, [], cs)

/-- Underscores stand between digits only; a prefix counts as a digit. -/
def underscoresOk (afterDigit : Bool) : List Char → Bool
  | [] => true
  | ['_'] => false
  | '_' :: c :: cs => afterDigit && c != '_' && underscoresOk true cs
  | _ :: cs => underscoresOk true cs

/-- The value of digits in a base, underscores left out. -/
def valueIn (base : Nat) (cs : List Char) : Nat :=
  cs.foldl (fun n c => if c = '_' then n else n * base + (anyDigitValue? c).getD 0) 0

/-- Reads a token made of a sign, a base prefix, and digits of the base or underscores. -/
def readToken (sign marker digits : List Char) (base : Nat) : Except NumberError Int64 :=
  let token := String.ofList (sign ++ marker ++ digits)
  if digits.isEmpty && 2 ≤ marker.length then .error (.malformed token)
  else
    let magnitude := valueIn base digits
    if Nat.pow 2 64 ≤ magnitude then .error (.outOfRange token)
    else if !underscoresOk (!marker.isEmpty) digits then .error (.malformed token)
    else match int64? (sign == ['-']) magnitude with
      | some n => .ok n
      | none => .error (.outOfRange token)

def scanSign : List Char → List Char × List Char
  | '-' :: cs => (['-'], cs)
  | '+' :: cs => (['+'], cs)
  | cs => ([], cs)

/-- Reads an integer after blanks and leaves alone what follows it. -/
def scanInt (cs : List Char) : Except NumberError Int64 :=
  let cs := cs.dropWhile isBlank
  let (sign, cs) := scanSign cs
  let (base, marker, cs) := splitBase cs
  let digits := cs.takeWhile fun c => isDigitOf base c || c = '_'
  if digits.isEmpty && marker.isEmpty then
    .error (if cs.isEmpty then .noInput else .notInteger)
  else readToken sign marker digits base

/-- Reads a text that is an integer from beginning to end, with a base prefix or without. -/
def readPrefixed? (cs : List Char) : Option Int64 :=
  let (sign, cs) := scanSign cs
  let (base, marker, digits) := splitBase cs
  if (marker.isEmpty && digits.isEmpty) || !digits.all fun c => isDigitOf base c || c = '_' then none
  else (readToken sign marker digits base).toOption

def NumberError.message : NumberError → String
  | .noInput => "EOF"
  | .notInteger => "expected integer"
  | .malformed token => "strconv.ParseInt: parsing \"" ++ token ++ "\": invalid syntax"
  | .outOfRange token => "strconv.ParseInt: parsing \"" ++ token ++ "\": value out of range"

end GuardedRtl.Text
