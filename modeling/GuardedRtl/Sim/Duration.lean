import GuardedRtl.Text.Number
import GuardedRtl.Text.Quoted

/-! Lengths of time as configuration files write them: numbers with units, one behind the other. A
length of time is a count of nanoseconds that fits 64 bits with a sign. -/

namespace GuardedRtl.Sim

structure Duration where
  nanos : Int64
  deriving DecidableEq

namespace Duration

def nanosecond : Nat := 1
def microsecond : Nat := 1000
def millisecond : Nat := 1000000
def second : Nat := 1000000000
def minute : Nat := 60000000000
def hour : Nat := 3600000000000

inductive ParseError where
  | invalid (text : String)
  | missingUnit (text : String)
  | unknownUnit (unit text : String)
  deriving DecidableEq

def ParseError.message : ParseError → String
  | .invalid text => "invalid duration: time: invalid duration " ++ Text.quoteAscii text
  | .missingUnit text =>
    "invalid duration: time: missing unit in duration " ++ Text.quoteAscii text
  | .unknownUnit unit text =>
    "invalid duration: time: unknown unit " ++ Text.quoteAscii unit ++ " in duration " ++
      Text.quoteAscii text

/-- The length of a unit; the micro sign and the Greek letter both stand for a millionth. -/
def unit? (cs : List Char) : Option Nat :=
  match cs with
  | ['n', 's'] => some nanosecond
  | ['u', 's'] => some microsecond
  | ['µ', 's'] => some microsecond
  | ['μ', 's'] => some microsecond
  | ['m', 's'] => some millisecond
  | ['s'] => some second
  | ['m'] => some minute
  | ['h'] => some hour
  | _ => none

/-! A fraction of a unit is computed with 53 significant bits, each step rounded to the nearest
number and a tie to the even one. -/

/-- `a / b` rounded to a whole number, a tie to the even one. -/
def roundHalfEven (a b : Nat) : Nat :=
  let q := a / b
  let r := a % b
  if b < 2 * r || (2 * r == b && q % 2 == 1) then q + 1 else q

/-- `n` rounded to 53 significant bits. -/
def roundNat (n : Nat) : Nat :=
  let unit := Nat.pow 2 (n.log2 - 52)
  roundHalfEven n unit * unit

/-- `a / b` multiplied by two to the power `e`, as a fraction. -/
def scaleBy (e : Int) (a b : Nat) : Nat × Nat :=
  if 0 ≤ e then (a * Nat.pow 2 e.toNat, b) else (a, b * Nat.pow 2 (-e).toNat)

/-- `a / b` rounded to 53 significant bits, as a fraction. -/
def roundQuotient (a b : Nat) : Nat × Nat :=
  if a = 0 then (0, 1)
  else
    let e : Int := a.log2 - b.log2 - 53
    let (c, d) := scaleBy (-e) a b
    let e := if Nat.pow 2 53 ≤ c / d then e + 1 else e
    let (c, d) := scaleBy (-e) a b
    scaleBy e (roundHalfEven c d) 1

/-- The nanoseconds in `fraction / scale` units. -/
def fractionNanos (fraction scale unit : Nat) : Nat :=
  let (a, b) := roundQuotient unit scale
  let (c, d) := roundQuotient (roundNat fraction * a) b
  c / d

/-- The digits after the point as `fraction / scale`. Digits beyond 63 bits do not count. -/
def readFraction (fraction scale : Nat) : List Char → Nat × Nat
  | [] => (fraction, scale)
  | c :: cs =>
    if (Nat.pow 2 63 - 1) / 10 < fraction then (fraction, scale)
    else
      let next := fraction * 10 + Text.digitValue c
      if Nat.pow 2 63 < next then (fraction, scale) else readFraction next (roundNat (scale * 10)) cs

/-- One number with its unit: the digits before and after the point, the unit, and the rest. -/
structure Part where
  whole : List Char
  fraction : List Char
  unit : List Char
  rest : List Char

def isUnitChar (c : Char) : Bool := !(c == '.' || Text.isDigit c)

def splitFraction : List Char → List Char × List Char
  | '.' :: cs => (cs.takeWhile Text.isDigit, cs.dropWhile Text.isDigit)
  | cs => ([], cs)

def splitPart (cs : List Char) : Part :=
  let whole := cs.takeWhile Text.isDigit
  let (fraction, cs) := splitFraction (cs.dropWhile Text.isDigit)
  ⟨whole, fraction, cs.takeWhile isUnitChar, cs.dropWhile isUnitChar⟩

/-- The nanoseconds of a part. -/
def Part.nanos (text : String) (p : Part) : Except ParseError Nat :=
  let whole := Text.digitsValue p.whole
  if Nat.pow 2 63 < whole then .error (.invalid text)
  else if p.whole.isEmpty && p.fraction.isEmpty then .error (.invalid text)
  else if p.unit.isEmpty then .error (.missingUnit text)
  else match unit? p.unit with
    | none => .error (.unknownUnit (String.ofList p.unit) text)
    | some unit =>
      if Nat.pow 2 63 < whole * unit then .error (.invalid text)
      else
        let (fraction, scale) := readFraction 0 1 p.fraction
        let total := whole * unit + fractionNanos fraction scale unit
        if Nat.pow 2 63 < total then .error (.invalid text) else .ok total

/-- Adds up parts. The sum is a 64-bit word, and more than half its range is refused. Each part takes
at least one character, so `fuel` need not exceed the length of the text. -/
def sumParts (text : String) : Nat → List Char → UInt64 → Except ParseError UInt64
  | _, [], sum => .ok sum
  | 0, _ :: _, _ => .error (.invalid text)
  | fuel + 1, c :: cs, sum =>
    if c == '.' || Text.isDigit c then do
      let part := splitPart (c :: cs)
      let nanos ← part.nanos text
      let sum := sum + UInt64.ofNat nanos
      if Nat.pow 2 63 < sum.toNat then .error (.invalid text)
      else sumParts text fuel part.rest sum
    else .error (.invalid text)

/-- Reads a length of time. -/
def parse (text : String) : Except ParseError Duration :=
  let (negative, cs) := Text.splitSign text.toList
  match cs with
  | ['0'] => .ok ⟨0⟩
  | [] => .error (.invalid text)
  | _ => do
    let sum ← sumParts text cs.length cs 0
    match Text.int64? negative sum.toNat with
    | some nanos => .ok ⟨nanos⟩
    | none => .error (.invalid text)

/-- The last `places` decimal digits of `n`. -/
def lastDigits (n : Nat) : Nat → List Char
  | 0 => []
  | places + 1 => lastDigits (n / 10) places ++ [Char.ofNat ('0'.toNat + n % 10)]

def dropTrailingZeros (cs : List Char) : List Char :=
  cs.foldr (fun c rest => if c = '0' && rest.isEmpty then [] else c :: rest) []

/-- `n` divided by ten to the power `places`, without zeros at the end. -/
def fixedPoint (n places : Nat) : List Char :=
  let whole := (toString (n / Nat.pow 10 places)).toList
  let fraction := dropTrailingZeros (lastDigits n places)
  if fraction.isEmpty then whole else whole ++ '.' :: fraction

/-- A count of nanoseconds: in a unit below the second if it is less than one, else in hours, minutes
and seconds without the leading ones that are zero. -/
def magnitudeText (n : Nat) : List Char :=
  if n = 0 then ['0', 's']
  else if n < microsecond then fixedPoint n 0 ++ ['n', 's']
  else if n < millisecond then fixedPoint n 3 ++ ['µ', 's']
  else if n < second then fixedPoint n 6 ++ ['m', 's']
  else
    let seconds := fixedPoint (n % minute) 9 ++ ['s']
    if n < minute then seconds
    else
      let minutes := (toString (n / minute % 60)).toList ++ 'm' :: seconds
      if n < hour then minutes else (toString (n / hour)).toList ++ 'h' :: minutes

/-- Writes a length of time. -/
def text (d : Duration) : String :=
  let cs := magnitudeText d.nanos.toInt.natAbs
  String.ofList (if d.nanos < 0 then '-' :: cs else cs)

end Duration

end GuardedRtl.Sim
