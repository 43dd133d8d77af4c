/-! Strings of bytes, and the text in them. Text is read character by character; a byte that begins no
character is passed by alone. -/

namespace GuardedRtl.Text

/-- A string of bytes. -/
abbrev Bytes := List UInt8

/-- The bytes of a text. -/
def bytes (s : String) : Bytes := s.toUTF8.data.toList

instance : Coe String Bytes := ⟨bytes⟩

/-- What bytes are read as: a character, or a byte that begins none. -/
inductive Glyph where
  | char (c : Char)
  | stray (b : UInt8)
  deriving DecidableEq

/-- The character that some bytes begin with, which takes four of them at most. -/
def firstChar? (bs : Bytes) : Option Char := (bs.take 4).toByteArray.utf8DecodeChar? 0

/-- Reads on, where the next `skip` bytes belong to the character before. -/
def readGlyphs : Nat → Bytes → List Glyph → List Glyph
  | _, [], done => done.reverse
  | skip + 1, _ :: rest, done => readGlyphs skip rest done
  | 0, b :: rest, done =>
    match firstChar? (b :: rest) with
    | some c => readGlyphs (c.utf8Size - 1) rest (.char c :: done)
    | none => readGlyphs 0 rest (.stray b :: done)

def glyphs (bs : Bytes) : List Glyph := readGlyphs 0 bs []

/-- What stands for a byte that begins no character. -/
def replacement : Char := Char.ofNat 0xfffd

def Glyph.shown : Glyph → Char
  | .char c => c
  | .stray _ => replacement

/-- The text in some bytes, whatever they are. -/
def decode (bs : Bytes) : String := String.ofList ((glyphs bs).map Glyph.shown)

end GuardedRtl.Text
