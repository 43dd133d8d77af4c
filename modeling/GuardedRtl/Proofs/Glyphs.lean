import GuardedRtl.Text.Bytes
import Mathlib.Data.List.Basic

/-! Text read back from its bytes. The bytes of a character are read as that character whatever comes
after them (`firstChar?_encode`), so a text is read back character by character (`glyphs_bytes`) and no
byte of it is left over (`decode_bytes`). Of the bytes below 128 each is a character of its own. -/

namespace GuardedRtl.Text

theorem bytes_eq (s : String) : bytes s = s.toList.flatMap String.utf8EncodeChar := by
  have hencode : (s.toList.flatMap String.utf8EncodeChar).toByteArray = s.toByteArray := by
    rw [← List.utf8Encode.eq_1, ← String.toByteArray_ofList, String.ofList_toList]
  have htoUTF8 : s.toUTF8 = s.toByteArray := rfl
  unfold bytes
  rw [htoUTF8, ← hencode, List.toList_data_toByteArray]

theorem firstChar?_encode (c : Char) (rest : Bytes) :
    firstChar? (String.utf8EncodeChar c ++ rest) = some c := by
  have hlength : (String.utf8EncodeChar c).length ≤ 4 := by
    rw [String.length_utf8EncodeChar]
    exact c.utf8Size_le_four
  unfold firstChar?
  rw [List.take_append, List.take_of_length_le hlength, List.toByteArray_append]
  exact ByteArray.utf8DecodeChar?_utf8EncodeChar_append

/-- The bytes that belong to a character are passed by. -/
theorem readGlyphs_skip (skipped rest : Bytes) (done : List Glyph) :
    readGlyphs skipped.length (skipped ++ rest) done = readGlyphs 0 rest done := by
  induction skipped with
  | nil => rfl
  | cons b skipped ih => exact ih

theorem readGlyphs_encode (c : Char) (rest : Bytes) (done : List Glyph) :
    readGlyphs 0 (String.utf8EncodeChar c ++ rest) done = readGlyphs 0 rest (.char c :: done) := by
  have hfirst := firstChar?_encode c rest
  have hlength := String.length_utf8EncodeChar c
  have hsize := c.utf8Size_pos
  cases hencode : String.utf8EncodeChar c with
  | nil =>
    rw [hencode, List.length_nil] at hlength
    omega
  | cons b bs =>
    rw [hencode, List.cons_append] at hfirst
    rw [hencode, List.length_cons] at hlength
    rw [List.cons_append, readGlyphs, hfirst]
    simp only
    rw [← hlength, Nat.add_sub_cancel, readGlyphs_skip]

theorem readGlyphs_flatMap (cs : List Char) (done : List Glyph) :
    readGlyphs 0 (cs.flatMap String.utf8EncodeChar) done = done.reverse ++ cs.map .char := by
  induction cs generalizing done with
  | nil => simp [readGlyphs]
  | cons c cs ih =>
    rw [List.flatMap_cons, readGlyphs_encode, ih]
    simp

theorem glyphs_bytes (s : String) : glyphs (bytes s) = s.toList.map .char := by
  rw [glyphs, bytes_eq, readGlyphs_flatMap, List.reverse_nil, List.nil_append]

@[simp] theorem decode_bytes (s : String) : decode (bytes s) = s := by
  have hshown : Glyph.shown ∘ Glyph.char = id := rfl
  rw [decode, glyphs_bytes, List.map_map, hshown, List.map_id, String.ofList_toList]

theorem utf8EncodeChar_ascii {c : Char} (h : c.toNat < 128) :
    String.utf8EncodeChar c = [UInt8.ofNat c.toNat] := by
  rw [String.utf8EncodeChar.eq_1]
  exact if_pos (Nat.le_of_lt_succ h)

end GuardedRtl.Text
