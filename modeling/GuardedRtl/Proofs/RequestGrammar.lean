import GuardedRtl.Proofs.Framing
import GuardedRtl.Proofs.Numerals
import Mathlib.Data.List.TakeWhile

/-! The grammar of requests. A line is a request if a numeral stands behind its last bar whose value is
a count of 64 bits; the command is all that stands before that bar, other bars included. Reading accepts
these lines and no others, and says of a line that it refuses whether it lacks a bar or a count. -/

namespace GuardedRtl.Sim.Request

open Text (Bytes bytes)

/-- A line made of a command, a bar, and a numeral for a count below `2 ^ 63`. -/
def Spells (line : Bytes) (r : Request) : Prop :=
  ∃ s : Bytes, line = r.command ++ bar :: s ∧ bar ∉ s ∧
    Text.Numeral (s.map byteChar) r.count ∧ r.count ≤ 2 ^ 63 - 1

theorem exists_lastBar {line : Bytes} (h : bar ∈ line) :
    ∃ command s : Bytes, line = command ++ bar :: s ∧ bar ∉ s := by
  obtain ⟨after, before, hline, hafter⟩ := List.eq_append_cons_of_mem (List.mem_reverse.mpr h)
  refine ⟨before.reverse, after.reverse, ?_, by simpa using hafter⟩
  simpa using congrArg List.reverse hline

theorem parse_barless {line : Bytes} (h : bar ∉ line) :
    parse line = .error (.malformedRequest line) := by
  have hrest : line.reverse.dropWhile (· != bar) = [] := by
    rw [List.dropWhile_eq_nil_iff]
    intro b hb
    have hne : b ≠ bar := by
      rintro rfl
      exact h (List.mem_reverse.mp hb)
    simpa using hne
  unfold parse splitAtLastBar
  rw [hrest]

section

variable (command : Bytes) {s : Bytes} (h : bar ∉ s)

include h

theorem parse_counted {n : ℕ} (hread : readCount? s = some n) :
    parse (command ++ bar :: s) = .ok ⟨command, n⟩ := by
  unfold parse
  rw [splitAtLastBar_append command h]
  simp only [hread]

theorem parse_uncounted (hread : readCount? s = none) :
    parse (command ++ bar :: s) = .error (.malformedCount (command ++ bar :: s)) := by
  unfold parse
  rw [splitAtLastBar_append command h]
  simp only [hread]

end

/-- A count is a numeral of a value that is not negative and fits 64 bits with a sign. -/
theorem readCount?_eq_some_iff {bs : Bytes} {n : ℕ} :
    readCount? bs = some n ↔ Text.Numeral (bs.map byteChar) n ∧ n ≤ 2 ^ 63 - 1 := by
  unfold readCount?
  constructor
  · intro h
    cases hread : Text.readInt? (bs.map byteChar) with
    | none =>
      rw [hread] at h
      cases h
    | some k =>
      have hhigh : k.toInt < 2 ^ 63 := k.toInt_lt
      simp only [hread, Int64.lt_iff_toInt_lt, Int64.toInt_zero, Option.ite_none_left_eq_some,
        Option.some.injEq] at h
      obtain ⟨hk, hn⟩ := h
      have hvalue : k.toInt = n := by omega
      exact ⟨hvalue ▸ Text.readInt?_eq_some_iff.mp hread, by omega⟩
  · rintro ⟨hnumeral, hn⟩
    have hvalue : (Int64.ofNat n).toInt = n := Int64.toInt_ofNat_of_lt (by omega)
    rw [← hvalue, ← Text.readInt?_eq_some_iff] at hnumeral
    simp [hnumeral, Int64.lt_iff_toInt_lt, hvalue]

theorem parse_eq_ok_iff {line : Bytes} {r : Request} : parse line = .ok r ↔ Spells line r := by
  constructor
  · intro h
    by_cases hbar : bar ∈ line
    · obtain ⟨command, s, rfl, hs⟩ := exists_lastBar hbar
      cases hread : readCount? s with
      | none =>
        rw [parse_uncounted command hs hread] at h
        cases h
      | some count =>
        rw [parse_counted command hs hread] at h
        cases h
        exact ⟨s, rfl, hs, readCount?_eq_some_iff.mp hread⟩
    · rw [parse_barless hbar] at h
      cases h
  · rintro ⟨s, rfl, hs, hcount⟩
    exact parse_counted _ hs (readCount?_eq_some_iff.mpr hcount)

theorem parse_refused {line : Bytes} (h : ∀ r, ¬ Spells line r) :
    parse line =
      .error (if bar ∈ line then .malformedCount line else .malformedRequest line) := by
  by_cases hbar : bar ∈ line
  · rw [if_pos hbar]
    obtain ⟨command, s, rfl, hs⟩ := exists_lastBar hbar
    cases hread : readCount? s with
    | none => exact parse_uncounted command hs hread
    | some count => exact absurd ⟨s, rfl, hs, readCount?_eq_some_iff.mp hread⟩ (h ⟨command, count⟩)
  · rw [if_neg hbar, parse_barless hbar]

/-- Reading accepts the lines of the grammar with the request that they spell, among them every
command with a decimal count behind it, and refuses all others. -/
theorem parse_grammar (line : Bytes) :
    (∀ r, parse line = .ok r ↔ Spells line r) ∧
    (∀ command n, line = command ++ bar :: bytes (toString n) → n ≤ 2 ^ 63 - 1 →
      parse line = .ok ⟨command, n⟩) ∧
    ((∀ r, ¬ Spells line r) →
      parse line =
        .error (if bar ∈ line then .malformedCount line else .malformedRequest line)) := by
  refine ⟨fun r => parse_eq_ok_iff, ?_, parse_refused⟩
  rintro command n rfl hn
  exact @parse_text ⟨command, n⟩ (by change n < 2 ^ 63; omega)

/-- A command with a bar in it and a byte that is no text, a count with a sign and zeros before it, the
largest count, and a line without a bar. -/
theorem parse_grammar_edges :
    parse ([97, bar, 255, bar] ++ bytes "+007") = .ok ⟨[97, bar, 255], 7⟩ ∧
    parse "peek x|9223372036854775807" = .ok ⟨"peek x", 2 ^ 63 - 1⟩ ∧
    parse "quit" = .error (.malformedRequest "quit") := by
  have hseven : Text.Numeral ((bytes "+007").map byteChar) 7 :=
    .plus (Text.isDecimal_iff.mpr (by decide))
  have hquit : ∀ r, ¬ Spells "quit" r := by
    rintro r ⟨s, hline, -⟩
    have hbar : bar ∈ bytes "quit" := by simp [hline]
    exact absurd hbar (by decide)
  refine ⟨?_, ?_, ?_⟩
  · exact ((parse_grammar _).1 ⟨[97, bar, 255], 7⟩).mpr
      ⟨"+007", by decide, by decide, hseven, by decide⟩
  · exact (parse_grammar _).2.1 "peek x" (2 ^ 63 - 1) (by decide) le_rfl
  · exact (parse_grammar "quit").2.2 hquit

end GuardedRtl.Sim.Request
