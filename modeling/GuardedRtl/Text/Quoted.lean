import GuardedRtl.Text.Bytes
import GuardedRtl.Text.Printable

/-! Quoted text for messages. A quote and a backslash are escaped, printable characters stand for
themselves, and every other character is written by its short escape or its code point; a byte that
begins no character is written as a number. -/

namespace GuardedRtl.Text

def hexDigit (n : Nat) : Char :=
  if n < 10 then Char.ofNat ('0'.toNat + n) else Char.ofNat ('a'.toNat + (n - 10))

/-- The low `places` hexadecimal digits of `n`, most significant first. -/
def hexPlaces (n : Nat) : Nat → List Char
  | 0 => []
  | places + 1 => hexPlaces (n / 16) places ++ [hexDigit (n % 16)]

def shortEscape? (c : Char) : Option Char :=
  match c.toNat with
  | 0x07 => some 'a'
  | 0x08 => some 'b'
  | 0x09 => some 't'
  | 0x0a => some 'n'
  | 0x0b => some 'v'
  | 0x0c => some 'f'
  | 0x0d => some 'r'
  | _ => none

def escapeChar (c : Char) : List Char :=
  if c = '"' ∨ c = '\\' then ['\\', c]
  else if isPrintable c then [c]
  else match shortEscape? c with
    | some e => ['\\', e]
    | none =>
      if c.toNat < 0x80 then '\\' :: 'x' :: hexPlaces c.toNat 2
      else if c.toNat < 0x10000 then '\\' :: 'u' :: hexPlaces c.toNat 4
      else '\\' :: 'U' :: hexPlaces c.toNat 8

/-- `s` between quotes, every character escaped by `escapeChar`. -/
def quote (s : String) : String :=
  String.ofList ('"' :: s.toList.flatMap escapeChar ++ ['"'])

def escapeByte (b : UInt8) : List Char := '\\' :: 'x' :: hexPlaces b.toNat 2

def escapeGlyph : Glyph → List Char
  | .char c => escapeChar c
  | .stray b => escapeByte b

/-- Bytes between quotes, as the text in them. -/
def quoteBytes (bs : Bytes) : String :=
  String.ofList ('"' :: (glyphs bs).flatMap escapeGlyph ++ ['"'])

/-- The escape that knows ASCII only: the bytes of any other character are written one by one. -/
def escapeAscii (c : Char) : List Char :=
  if c = '"' ∨ c = '\\' then ['\\', c]
  else if c.toNat < 0x20 ∨ 0x80 ≤ c.toNat then
    (String.singleton c).toUTF8.toList.flatMap escapeByte
  else [c]

/-- `s` between quotes, every character escaped by `escapeAscii`. -/
def quoteAscii (s : String) : String :=
  String.ofList ('"' :: s.toList.flatMap escapeAscii ++ ['"'])

end GuardedRtl.Text
