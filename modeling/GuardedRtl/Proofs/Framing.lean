import GuardedRtl.Proofs.Decimals
import GuardedRtl.Proofs.Delimited
import GuardedRtl.Proofs.Glyphs
import GuardedRtl.Sim.Server

/-! Lines in a stream of bytes, on their way out and back. A reader gets the lines of a stream however
the stream is cut (`LineReader.Expects.feed`), and the line of a request reads back as the request
(`Request.parse_text`). -/

namespace GuardedRtl.Sim

open Text (Bytes bytes)

@[simp] theorem frame_nil : frame [] = [] := rfl

@[simp] theorem frame_cons (line : Bytes) (lines : List Bytes) :
    frame (line :: lines) = line ++ lineFeed :: frame lines := by
  simp [frame]

@[simp] theorem frame_append (xs ys : List Bytes) :
    frame (xs ++ ys) = frame xs ++ frame ys := by
  simp [frame]

/-- A stream is cut at its first line feed in one way only. -/
theorem firstLine_unique {v w r s : Bytes} (hv : lineFeed ∉ v) (hw : lineFeed ∉ w)
    (h : v ++ lineFeed :: r = w ++ lineFeed :: s) : v = w ∧ r = s := by
  have hcut := Rtl.run_unique (· != lineFeed) (by grind) (by grind) (by simp) (by simp) h
  exact ⟨hcut.1, by simpa using hcut.2⟩

/-- What stands before the first line feed belongs to the first line. -/
theorem firstLine_extends {v w r s : Bytes} {b : UInt8} (hv : lineFeed ∉ v) (hb : b ≠ lineFeed)
    (h : v ++ b :: r = w ++ lineFeed :: s) : v ++ [b] <+: w := by
  rcases List.append_eq_append_iff.mp h with ⟨a, rfl, ha⟩ | ⟨a, rfl, ha⟩
  · cases a with
    | nil => exact absurd (List.cons.inj ha).1 hb
    | cons c a =>
      obtain ⟨rfl, -⟩ := List.cons.inj ha
      exact ⟨a, by simp⟩
  · cases a with
    | nil => exact absurd (List.cons.inj ha).1.symm hb
    | cons c a =>
      obtain ⟨rfl, -⟩ := List.cons.inj ha
      simp at hv

theorem notMem_of_isOneLine {command : Bytes} (h : isOneLine command) {b : UInt8}
    (hb : b = carriageReturn ∨ b = lineFeed) : b ∉ command := by
  intro hmem
  have := List.all_eq_true.mp h b hmem
  rcases hb with rfl | rfl <;> simp at this

/-- A line without the carriage return at its end. -/
def withoutReturn (line : Bytes) : Bytes :=
  if line.getLast? = some carriageReturn then line.dropLast else line

theorem withoutReturn_of_notMem {line : Bytes} (h : carriageReturn ∉ line) :
    withoutReturn line = line :=
  if_neg fun hlast => h (List.mem_of_getLast? hlast)

theorem dropCarriageReturn_eq (line : Bytes) :
    dropCarriageReturn line.toByteArray = (withoutReturn line).toByteArray := by
  obtain rfl | ⟨init, b, rfl⟩ := line.eq_nil_or_concat
  · rfl
  · rw [List.concat_eq_append]
    have hsize : (init ++ [b]).toByteArray.size = init.length + 1 := by simp
    have hlast (h : (init ++ [b]).toByteArray.size - 1 < (init ++ [b]).toByteArray.size) :
        (init ++ [b]).toByteArray.get ((init ++ [b]).toByteArray.size - 1) h = b := by
      change (init ++ [b]).toByteArray[(init ++ [b]).toByteArray.size - 1] = b
      rw [List.getElem_toByteArray]
      simp
    have hinit : (init ++ [b]).toByteArray.extract 0 ((init ++ [b]).toByteArray.size - 1) =
        init.toByteArray := by
      apply ByteArray.ext
      simp
    unfold dropCarriageReturn withoutReturn
    rw [dif_pos (by omega), hlast, hinit]
    by_cases hb : b = carriageReturn <;> simp [hb]

namespace LineReader

theorem feedFrom_eq (limit : ℕ) (r : LineReader) (chunk : ByteArray) (i : ℕ) :
    r.feedFrom limit chunk i = (chunk.data.toList.drop i).foldl (push limit) r := by
  fun_induction feedFrom limit r chunk i with
  | case1 r i h ih =>
    have hlength : i < chunk.data.toList.length := by simpa using h
    rw [ih, List.drop_eq_getElem_cons hlength, List.foldl_cons, Array.getElem_toList]
    rfl
  | case2 r i h =>
    have hlength : chunk.data.toList.length ≤ i := by simpa using h
    rw [List.drop_eq_nil_of_le hlength, List.foldl_nil]

/-- A chunk is read byte by byte. -/
theorem feed_eq (limit : ℕ) (r : LineReader) (chunk : ByteArray) :
    r.feed limit chunk = chunk.data.toList.foldl (push limit) r := by
  rw [feed, feedFrom_eq, List.drop_zero]

/-- Chunks are read as the bytes in them, one after the other. -/
theorem feed_chunks (limit : ℕ) (r : LineReader) (chunks : List ByteArray) :
    chunks.foldl (feed limit) r = (chunks.flatMap (·.data.toList)).foldl (push limit) r := by
  induction chunks generalizing r with
  | nil => rfl
  | cons chunk chunks ih =>
    rw [List.foldl_cons, ih, List.flatMap_cons, List.foldl_append, feed_eq]

/-- A reader that has `coming` still to read has got some of the `lines`, and of the others the
beginning waits for the rest, unless one was too long. -/
def Follows (r : LineReader) (coming : Bytes) (lines : List Bytes) : Prop :=
  ∃ got missing, lines = got ++ missing ∧
    r.lines.toList = got.map (fun line => (withoutReturn line).toByteArray) ∧
    (r.overflowed = true ∨
      lineFeed ∉ r.pending.data.toList ∧ r.pending.data.toList ++ coming = frame missing)

/-- A reader that has not failed. -/
structure Expects (r : LineReader) (coming : Bytes) (lines : List Bytes) : Prop where
  sound : r.overflowed = false
  follows : r.Follows coming lines

/-- What a reader can take: no line feed within a line, and fewer bytes than are too many. -/
def IsLine (limit : ℕ) (line : Bytes) : Prop := lineFeed ∉ line ∧ line.length < limit

variable {limit : ℕ} {r : LineReader} {coming : Bytes} {lines : List Bytes}

theorem Expects.cut (h : r.Expects coming lines) :
    ∃ got missing, lines = got ++ missing ∧
      r.lines.toList = got.map (fun line => (withoutReturn line).toByteArray) ∧
      lineFeed ∉ r.pending.data.toList ∧ r.pending.data.toList ++ coming = frame missing := by
  obtain ⟨hsound, got, missing, hlines, hgot, hlong | ⟨hpending, hframe⟩⟩ := h
  · simp [hsound] at hlong
  · exact ⟨got, missing, hlines, hgot, hpending, hframe⟩

theorem expects_start (lines : List Bytes) : ({} : LineReader).Expects (frame lines) lines :=
  ⟨rfl, [], lines, rfl, rfl, .inr ⟨by simp, by simp⟩⟩

theorem push_overflowed (hlong : r.overflowed = true) (b : UInt8) : r.push limit b = r := by
  obtain ⟨lines, pending, overflowed⟩ := r
  cases hlong
  rfl

theorem foldl_overflowed (hlong : r.overflowed = true) (bs : Bytes) :
    bs.foldl (push limit) r = r := by
  induction bs with
  | nil => rfl
  | cons b bs ih => rw [List.foldl_cons, push_overflowed hlong, ih]

theorem push_lineFeed (hsound : r.overflowed = false) :
    r.push limit lineFeed = ⟨r.lines.push (dropCarriageReturn r.pending), .empty, false⟩ := by
  simp [push, hsound]

theorem push_byte {b : UInt8} (hsound : r.overflowed = false) (hb : b ≠ lineFeed) :
    r.push limit b = ⟨r.lines, r.pending.push b, decide (limit ≤ r.pending.size + 1)⟩ := by
  by_cases hroom : limit ≤ r.pending.size + 1 <;> simp [push, hsound, hb, hroom]

theorem Follows.push (hlines : ∀ line ∈ lines, lineFeed ∉ line) {b : UInt8}
    (h : r.Follows (b :: coming) lines) : (r.push limit b).Follows coming lines := by
  cases hsound : r.overflowed with
  | true =>
    obtain ⟨got, missing, hcut, hgot, -⟩ := h
    rw [push_overflowed hsound]
    exact ⟨got, missing, hcut, hgot, .inl hsound⟩
  | false =>
    obtain ⟨got, missing, rfl, hgot, hpending, hframe⟩ := Expects.cut ⟨hsound, h⟩
    cases missing with
    | nil => simp at hframe
    | cons line missing =>
      rw [frame_cons] at hframe
      by_cases hb : b = lineFeed
      · -- the first of the missing lines has ended
        subst hb
        obtain ⟨hpendingEq, rfl⟩ := firstLine_unique hpending (hlines line (by simp)) hframe
        rw [push_lineFeed hsound]
        refine ⟨got ++ [line], missing, by simp, ?_, .inr ⟨by simp, by simp⟩⟩
        have harray : r.pending = line.toByteArray := by
          apply ByteArray.ext
          rw [List.data_toByteArray, ← hpendingEq, Array.toArray_toList]
        simp [hgot, harray, dropCarriageReturn_eq]
      · rw [push_byte hsound hb]
        refine ⟨got, line :: missing, rfl, hgot, .inr ⟨?_, ?_⟩⟩
        · simp [hpending, Ne.symm hb]
        · simpa using hframe

/-- A line that is short enough is not too long at any of its bytes. -/
theorem Expects.push (hlines : ∀ line ∈ lines, IsLine limit line) {b : UInt8}
    (h : r.Expects (b :: coming) lines) : (r.push limit b).Expects coming lines := by
  refine ⟨?_, h.follows.push fun line hline => (hlines line hline).1⟩
  obtain ⟨got, missing, rfl, -, hpending, hframe⟩ := h.cut
  cases missing with
  | nil => simp at hframe
  | cons line missing =>
    rw [frame_cons] at hframe
    by_cases hb : b = lineFeed
    · rw [hb, push_lineFeed h.sound]
    · have hlength := (firstLine_extends hpending hb hframe).length_le
      simp only [List.length_append, Array.length_toList, List.length_singleton] at hlength
      have hroom : r.pending.size + 1 < limit := lt_of_le_of_lt hlength (hlines line (by simp)).2
      rw [push_byte h.sound hb]
      simpa using hroom

theorem Follows.foldl (hlines : ∀ line ∈ lines, lineFeed ∉ line) {bs : Bytes}
    (h : r.Follows (bs ++ coming) lines) :
    (bs.foldl (LineReader.push limit) r).Follows coming lines := by
  induction bs generalizing r with
  | nil => exact h
  | cons b bs ih => exact ih (h.push hlines)

theorem Expects.foldl (hlines : ∀ line ∈ lines, IsLine limit line) {bs : Bytes}
    (h : r.Expects (bs ++ coming) lines) :
    (bs.foldl (LineReader.push limit) r).Expects coming lines := by
  induction bs generalizing r with
  | nil => exact h
  | cons b bs ih => exact ih (h.push hlines)

theorem Follows.feed (hlines : ∀ line ∈ lines, lineFeed ∉ line) (n : ℕ)
    (h : r.Follows coming lines) :
    (r.feed limit (coming.take n).toByteArray).Follows (coming.drop n) lines := by
  rw [feed_eq, List.toList_data_toByteArray]
  apply Follows.foldl hlines
  rwa [List.take_append_drop]

/-- Where a stream is cut does not matter. -/
theorem Expects.feed (hlines : ∀ line ∈ lines, IsLine limit line) (n : ℕ)
    (h : r.Expects coming lines) :
    (r.feed limit (coming.take n).toByteArray).Expects (coming.drop n) lines := by
  rw [feed_eq, List.toList_data_toByteArray]
  apply Expects.foldl hlines
  rwa [List.take_append_drop]

/-- At its end, a stream of whole lines has been read line by line. -/
theorem Expects.finish (h : r.Expects [] lines) :
    r.finish = lines.map (fun line => (withoutReturn line).toByteArray) := by
  obtain ⟨got, missing, rfl, hgot, hpending, hframe⟩ := h.cut
  rw [List.append_nil] at hframe
  cases missing with
  | cons line missing => simp [hframe] at hpending
  | nil =>
    have hsize : r.pending.size = 0 := by
      rw [← ByteArray.size_data, ← Array.length_toList, hframe]
      rfl
    simp [LineReader.finish, hsize, hgot]

/-- More lines are sent after those on their way. -/
theorem Follows.append (h : r.Follows coming lines) (more : List Bytes) :
    r.Follows (coming ++ frame more) (lines ++ more) := by
  obtain ⟨got, missing, rfl, hgot, hrest⟩ := h
  refine ⟨got, missing ++ more, by simp, hgot, hrest.imp_right ?_⟩
  rintro ⟨hpending, hframe⟩
  exact ⟨hpending, by rw [← List.append_assoc, hframe, frame_append]⟩

theorem Expects.append (h : r.Expects coming lines) (more : List Bytes) :
    r.Expects (coming ++ frame more) (lines ++ more) :=
  ⟨h.sound, h.follows.append more⟩

/-- The first line that a reader has is the first of those it was sent. -/
theorem Follows.take {line : ByteArray} {rest : List ByteArray} (h : r.Follows coming lines)
    (hline : r.lines.toList = line :: rest) :
    ∃ first more, lines = first :: more ∧ line = (withoutReturn first).toByteArray ∧
      Follows { r with lines := rest.toArray } coming more := by
  obtain ⟨got, missing, rfl, hgot, hrest⟩ := h
  rw [hline] at hgot
  cases got with
  | nil => simp at hgot
  | cons first got =>
    obtain ⟨rfl, rfl⟩ := List.cons.inj hgot
    exact ⟨first, got ++ missing, rfl, rfl, got, missing, rfl, rfl, hrest⟩

theorem Expects.take {line : ByteArray} {rest : List ByteArray} (h : r.Expects coming lines)
    (hline : r.lines.toList = line :: rest) :
    ∃ first more, lines = first :: more ∧ line = (withoutReturn first).toByteArray ∧
      Expects { r with lines := rest.toArray } coming more := by
  obtain ⟨first, more, hlines, hfirst, hfollows⟩ := h.follows.take hline
  exact ⟨first, more, hlines, hfirst, h.sound, hfollows⟩

/-- A reader that has read everything and holds no line was sent none but those taken from it. -/
theorem Expects.eq_nil (h : r.Expects [] lines) (hnone : r.lines.toList = []) : lines = [] := by
  obtain ⟨got, missing, rfl, hgot, hpending, hframe⟩ := h.cut
  have hgotNil : got = [] := by simpa [hnone] using hgot.symm
  cases missing with
  | nil => simp [hgotNil]
  | cons line missing =>
    rw [List.append_nil, frame_cons] at hframe
    simp [hframe] at hpending

end LineReader

/-- The lines of a stream, however it is cut. -/
theorem readLines_frame {chunks : List ByteArray} {lines : List Bytes}
    (hlines : ∀ line ∈ lines, LineReader.IsLine maxLineSize line)
    (h : chunks.flatMap (·.data.toList) = frame lines) (ending : Error) :
    readLines chunks ending = (lines.map withoutReturn, ending) := by
  have hdone : (chunks.foldl (LineReader.feed maxLineSize) {}).Expects [] lines := by
    rw [LineReader.feed_chunks, h]
    exact LineReader.Expects.foldl hlines (by simpa using LineReader.expects_start lines)
  unfold readLines
  simp [hdone.finish, hdone.sound, Function.comp_def]

namespace Request

theorem splitAtLastBar_append (xs : Bytes) {ys : Bytes} (h : bar ∉ ys) :
    splitAtLastBar (xs ++ bar :: ys) = some (xs, ys) := by
  have hys : ∀ b ∈ ys.reverse, (b != bar) = true := by
    intro b hb
    have : b ≠ bar := fun heq => h (heq ▸ List.mem_reverse.mp hb)
    simpa using this
  unfold splitAtLastBar
  rw [List.reverse_append, List.reverse_cons, List.append_assoc, List.dropWhile_append_of_pos hys,
    List.takeWhile_append_of_pos hys]
  simp

/-- A text of characters below 128 has one byte for each. -/
theorem map_byteChar_bytes {s : String} (h : ∀ c ∈ s.toList, c.toNat < 128) :
    (bytes s).map byteChar = s.toList := by
  have hchar : ∀ c ∈ s.toList, (String.utf8EncodeChar c).map byteChar = [c] := by
    intro c hc
    have hbyte : (UInt8.ofNat c.toNat).toNat = c.toNat := by
      simp [UInt8.toNat_ofNat', Nat.mod_eq_of_lt (show c.toNat < 256 by have := h c hc; omega)]
    rw [Text.utf8EncodeChar_ascii (h c hc), List.map_singleton, byteChar, hbyte, Char.ofNat_toNat]
  rw [Text.bytes_eq, List.map_flatMap, List.flatMap_congr hchar]
  simp

theorem map_byteChar_repr (n : ℕ) : (bytes (Nat.repr n)).map byteChar = (Nat.repr n).toList := by
  apply map_byteChar_bytes
  intro c hc
  exact lt_of_le_of_lt (Char.isDigit_iff_toNat.mp (Text.isDigit_of_mem_repr hc)).2 (by decide)

theorem isDigit_of_mem_count {n : ℕ} {b : UInt8} (h : b ∈ bytes (Nat.repr n)) :
    (byteChar b).isDigit := by
  have hchar : byteChar b ∈ (Nat.repr n).toList := map_byteChar_repr n ▸ List.mem_map_of_mem h
  exact Text.isDigit_of_mem_repr hchar

theorem bar_notMem_repr (n : ℕ) : bar ∉ bytes (Nat.repr n) :=
  fun hmem => absurd (isDigit_of_mem_count hmem) (by decide)

theorem readCount?_repr {n : ℕ} (h : n < 2 ^ 63) : readCount? (bytes (Nat.repr n)) = some n := by
  have hvalue : (Int64.ofNat n).toInt = n := Int64.toInt_ofNat_of_lt h
  have hnonneg : ¬ Int64.ofNat n < 0 := by
    rw [Int64.lt_iff_toInt_lt, hvalue]
    simp
  have hread : Text.int64? false n = some (Int64.ofNat n) := Text.int64?_eq_some_iff.mpr hvalue
  unfold readCount?
  rw [map_byteChar_repr, Text.readInt?_repr, hread]
  simp only
  rw [if_neg hnonneg, hvalue, Int.toNat_natCast]

theorem parse_text {q : Request} (h : q.count < 2 ^ 63) : parse q.text = .ok q := by
  have hcount : toString q.count = Nat.repr q.count := rfl
  unfold parse text
  rw [hcount, splitAtLastBar_append _ (bar_notMem_repr q.count)]
  simp only [readCount?_repr h]

end Request

end GuardedRtl.Sim
