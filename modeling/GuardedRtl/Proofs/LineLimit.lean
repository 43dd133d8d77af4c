import GuardedRtl.Proofs.Framing
import GuardedRtl.Sim.LineQueue
import Mathlib.Data.List.TakeWhile

/-! Which lines of a stream reach a queue: all of them, however the stream is cut, as long as each has
fewer than `maxLineSize` bytes before its line feed, and those before the first that has more. The line
feed and a carriage return before it take their place beside the line, so a line of `maxLineSize` bytes
is too long. Main statement: `LineQueue.pump_lines`. -/

namespace GuardedRtl.Sim

open Text (Bytes)

/-- The lines of a stream: what stands between its line feeds, and what follows the last of them
unless that is nothing. -/
def streamLines (stream : Bytes) : List Bytes :=
  let parts := stream.splitOn lineFeed
  if parts.getLast? = some [] then parts.dropLast else parts

theorem streamLines_nil : streamLines [] = [] := by simp [streamLines]

theorem streamLines_last {line : Bytes} (h : lineFeed ∉ line) (hne : line ≠ []) :
    streamLines line = [line] := by
  simp [streamLines, List.splitOn_eq_singleton h, hne]

theorem streamLines_line {line : Bytes} (h : lineFeed ∉ line) (rest : Bytes) :
    streamLines (line ++ lineFeed :: rest) = line :: streamLines rest := by
  have hrest := List.splitOn_ne_nil lineFeed rest
  rw [streamLines, List.splitOn_append_cons_self_of_not_mem h]
  simp only [List.getLast?_cons_of_ne_nil hrest, List.dropLast_cons_of_ne_nil hrest, streamLines]
  split_ifs <;> rfl

/-- A stream is empty, or a line that has not ended, or a line and a stream after it. -/
theorem stream_induction {P : Bytes → Prop} (nil : P [])
    (last : ∀ line, lineFeed ∉ line → line ≠ [] → P line)
    (line : ∀ line rest, lineFeed ∉ line → P rest → P (line ++ lineFeed :: rest))
    (stream : Bytes) : P stream := by
  induction hlength : stream.length using Nat.strong_induction_on generalizing stream with
  | _ n ih =>
    by_cases hfeed : lineFeed ∈ stream
    · obtain ⟨first, rest, rfl, hfirst⟩ := List.eq_append_cons_of_mem hfeed
      refine line first rest hfirst (ih rest.length ?_ rest rfl)
      rw [← hlength, List.length_append, List.length_cons]
      omega
    · by_cases hne : stream = []
      · exact hne ▸ nil
      · exact last stream hfeed hne

namespace LineReader

variable {limit : ℕ} {r : LineReader}

/-- The bytes of a line wait for its end. -/
theorem foldl_line {line : Bytes} (hsound : r.overflowed = false) (hline : lineFeed ∉ line)
    (hroom : r.pending.size + line.length < limit) :
    line.foldl (push limit) r = ⟨r.lines, r.pending ++ line.toByteArray, false⟩ := by
  induction line generalizing r with
  | nil =>
    obtain ⟨lines, pending, overflowed⟩ := r
    cases hsound
    simp
  | cons b line ih =>
    obtain ⟨hb, hline⟩ := not_or.mp (mt List.mem_cons.mpr hline)
    rw [List.length_cons] at hroom
    have hopen : decide (limit ≤ r.pending.size + 1) = false := decide_eq_false (by omega)
    rw [List.foldl_cons, push_byte hsound (Ne.symm hb), ih hopen hline (by simp; omega)]
    have harray : r.pending.push b ++ line.toByteArray = r.pending ++ (b :: line).toByteArray := by
      apply ByteArray.ext
      simp
    rw [harray]

/-- At `limit` bytes the line is too long, and no byte after that is read. -/
theorem foldl_tooLong {line : Bytes} (hsound : r.overflowed = false) (hline : lineFeed ∉ line)
    (hroom : r.pending.size < limit) (hlong : limit ≤ r.pending.size + line.length) :
    (line.foldl (push limit) r).lines = r.lines ∧ (line.foldl (push limit) r).overflowed = true := by
  induction line generalizing r with
  | nil => exact absurd hlong (by simpa using hroom)
  | cons b line ih =>
    obtain ⟨hb, hline⟩ := not_or.mp (mt List.mem_cons.mpr hline)
    rw [List.length_cons] at hlong
    rw [List.foldl_cons, push_byte hsound (Ne.symm hb)]
    by_cases hfull : limit ≤ r.pending.size + 1
    · rw [foldl_overflowed (by simpa using hfull)]
      simpa using hfull
    · refine ih (by simpa using hfull) hline ?_ ?_
      all_goals
        simp only [ByteArray.size_push]
        omega

/-- A stream is read up to the first line that is too long. -/
theorem read_stream (hlimit : 0 < limit) (lines : Array ByteArray) (stream : Bytes) :
    (stream.foldl (push limit) ⟨lines, .empty, false⟩).finish = lines.toList ++
        ((streamLines stream).takeWhile (·.length < limit)).map
          (fun line => (withoutReturn line).toByteArray) ∧
      (stream.foldl (push limit) ⟨lines, .empty, false⟩).overflowed =
        (streamLines stream).any (limit ≤ ·.length) := by
  induction stream using stream_induction generalizing lines with
  | nil => simp [streamLines_nil, finish]
  | last line hline hne =>
    rw [streamLines_last hline hne]
    by_cases hshort : line.length < limit
    · rw [foldl_line rfl hline (by simpa using hshort)]
      simp [finish, hshort, hne, dropCarriageReturn_eq]
    · have hlong : limit ≤ line.length := by omega
      obtain ⟨hlines, hover⟩ := foldl_tooLong (r := ⟨lines, .empty, false⟩) rfl hline hlimit
        (by simpa using hlong)
      simp [finish, hlines, hover, hshort, hlong]
  | line line rest hline ih =>
    rw [streamLines_line hline, List.foldl_append, List.foldl_cons]
    by_cases hshort : line.length < limit
    · rw [foldl_line rfl hline (by simpa using hshort), push_lineFeed rfl]
      simp [ih, hshort, dropCarriageReturn_eq]
    · have hlong : limit ≤ line.length := by omega
      obtain ⟨hlines, hover⟩ := foldl_tooLong (r := ⟨lines, .empty, false⟩) rfl hline hlimit
        (by simpa using hlong)
      -- what comes after the line is dropped
      rw [push_overflowed hover, foldl_overflowed hover]
      simp [finish, hlines, hover, hshort, hlong]

end LineReader

namespace LineQueue

theorem pump_eq (q : LineQueue) (chunks : List ByteArray) (ending : Error) :
    q.pump chunks ending =
      ⟨q.lines ++ ((streamLines (chunks.flatMap (·.data.toList))).takeWhile
          (·.length < maxLineSize)).map withoutReturn,
        some (if (streamLines (chunks.flatMap (·.data.toList))).any (maxLineSize ≤ ·.length)
          then .lineTooLong else ending)⟩ := by
  have hlimit : 0 < maxLineSize := Nat.pow_pos (by decide)
  obtain ⟨hlines, hover⟩ :=
    LineReader.read_stream hlimit #[] (chunks.flatMap (·.data.toList))
  rw [← LineReader.feed_chunks] at hlines hover
  simp only [pump, readLines, putAll, close, hlines, hover]
  simp [Function.comp_def]

/-- A stream in which every line has fewer than `maxLineSize` bytes before its line feed is queued line
by line, byte for byte, and ends the queue as it ended itself, however it is cut. Otherwise the lines
before the first that is too long are queued, and that line ends the queue. -/
theorem pump_lines (q : LineQueue) (chunks : List ByteArray) (ending : Error)
    (lines : List Bytes) (hlines : lines = streamLines (chunks.flatMap (·.data.toList))) :
    ((∀ line ∈ lines, line.length < maxLineSize) →
      q.pump chunks ending = ⟨q.lines ++ lines.map withoutReturn, some ending⟩) ∧
    ∀ before line after, lines = before ++ line :: after →
      (∀ x ∈ before, x.length < maxLineSize) → maxLineSize ≤ line.length →
      q.pump chunks ending = ⟨q.lines ++ before.map withoutReturn, some .lineTooLong⟩ := by
  have hpump := q.pump_eq chunks ending
  rw [← hlines] at hpump
  refine ⟨fun hshort => ?_, fun before line after hcut hbefore hlong => ?_⟩
  · have hwhole : lines.takeWhile (·.length < maxLineSize) = lines :=
      List.takeWhile_eq_self_iff.mpr fun line hline => decide_eq_true (hshort line hline)
    have hnone : lines.any (maxLineSize ≤ ·.length) = false :=
      List.any_eq_false.mpr fun line hline => by simpa using hshort line hline
    rw [hwhole, hnone] at hpump
    exact hpump
  · have hbefore : ∀ x ∈ before, decide (x.length < maxLineSize) = true :=
      fun x hx => decide_eq_true (hbefore x hx)
    have htaken : lines.takeWhile (·.length < maxLineSize) = before := by
      rw [hcut, List.takeWhile_append_of_pos hbefore,
        List.takeWhile_cons_of_neg (by simpa using hlong), List.append_nil]
    have hsome : lines.any (maxLineSize ≤ ·.length) = true :=
      List.any_eq_true.mpr ⟨line, by simp [hcut], decide_eq_true hlong⟩
    rw [htaken, hsome] at hpump
    exact hpump

/-- A carriage return that arrives apart from its line feed, an empty line, and a line that does not
end and is no text. -/
theorem pump_lines_cut :
    ({} : LineQueue).pump [[97, carriageReturn].toByteArray, [lineFeed, lineFeed, 255].toByteArray]
      .endOfInput = ⟨[[97], [], [255]], some .endOfInput⟩ := by
  obtain ⟨hshort, -⟩ := pump_lines {}
    [[97, carriageReturn].toByteArray, [lineFeed, lineFeed, 255].toByteArray] .endOfInput
    [[97, carriageReturn], [], [255]] (by decide +kernel)
  exact hshort (by decide +kernel)

/-- A line of `maxLineSize` bytes ends the queue, as its line feed does not fit beside it. -/
theorem pump_full_line {line : Bytes} (hfeed : lineFeed ∉ line)
    (hlength : line.length = maxLineSize) (ending : Error) :
    streamLines (line ++ [lineFeed]) = [line] ∧
      ({} : LineQueue).pump [(line ++ [lineFeed]).toByteArray] ending = ⟨[], some .lineTooLong⟩ := by
  have hlines : streamLines (line ++ [lineFeed]) = [line] := by
    rw [streamLines_line hfeed, streamLines_nil]
  refine ⟨hlines, ?_⟩
  rw [pump_eq]
  simp [hlines, hlength]

/-- The one line of the stream has no more than `maxLineSize` bytes and is not queued. -/
theorem longest_line_refused :
    (∀ line ∈ streamLines (List.replicate maxLineSize 120 ++ [lineFeed]),
      line.length ≤ maxLineSize) ∧
    ({} : LineQueue).pump [(List.replicate maxLineSize 120 ++ [lineFeed]).toByteArray] .endOfInput =
      ⟨[], some .lineTooLong⟩ := by
  have hfeed : lineFeed ∉ List.replicate maxLineSize 120 :=
    fun hmem => absurd (List.eq_of_mem_replicate hmem) (by decide)
  obtain ⟨hlines, hpump⟩ := pump_full_line hfeed List.length_replicate .endOfInput
  refine ⟨?_, hpump⟩
  rw [hlines, List.forall_mem_singleton, List.length_replicate]

end LineQueue

end GuardedRtl.Sim
