import GuardedRtl.Text.Number

/-! Decimal numbers with a point and an exponent, and which of them are too large for a binary number
of 64 bits. -/

namespace GuardedRtl.Text

/-- The number `coefficient * 10 ^ exponent`. -/
structure Decimal where
  coefficient : Nat
  exponent : Int
  deriving DecidableEq

namespace Decimal

/-- The number that the digits of an exponent denote. After the fifth digit that counts the others do
not: every number with such an exponent is zero, or far too large or too small. -/
def exponentValue (cs : List Char) : Nat :=
  cs.foldl (fun n c => if n < 10000 then n * 10 + digitValue c else n) 0

/-- The size of a number that is written with digits, at most one point and at most one exponent. -/
def magnitude (cs : List Char) : Decimal :=
  let isMark := fun c => c == 'e' || c == 'E'
  let written := cs.takeWhile fun c => !isMark c
  let (negative, digits) := splitSign ((cs.dropWhile fun c => !isMark c).drop 1)
  let exponent : Int := exponentValue digits
  let places : Int := ((written.dropWhile (· != '.')).filter isDigit).length
  ⟨digitsValue (written.filter isDigit), (if negative then -exponent else exponent) - places⟩

/-- The middle between the largest binary number of 64 bits and what would be the next; it has 309
digits. -/
def overflowBound : Nat := Nat.pow 2 1024 - Nat.pow 2 970

/-- Whether the nearest binary number would be past the largest. The number of digits decides this,
except close to the bound. -/
def overflows (d : Decimal) : Bool :=
  let size : Int := (Nat.toDigits 10 d.coefficient).length + d.exponent
  if d.coefficient = 0 || size < 309 then false
  else if 309 < size then true
  else if 0 ≤ d.exponent then overflowBound ≤ d.coefficient * Nat.pow 10 d.exponent.toNat
  else overflowBound * Nat.pow 10 (-d.exponent).toNat ≤ d.coefficient

end Decimal

end GuardedRtl.Text
