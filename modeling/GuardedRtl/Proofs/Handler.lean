import GuardedRtl.Proofs.Transparency

/-! A session of a server as one party among others: it goes on by single steps, between which
other sessions can have the simulator. `Handler.turn` is one step, and `Handler.step_turn` says all
that it can do. What is still to be answered does not depend on how much of it has been read
(`Handler.remaining`), and what a session comes to does not depend on how far it has got
(`Handler.Step.complete_eq`). How it stands is told by the requests that it brought to the simulator
(`Handler.Standing.step`). -/

namespace GuardedRtl.Sim

open Text (Bytes)

variable {σ : Type}

namespace LineReader

/-- Lines that a reader has got already make no difference to what it reads. -/
theorem push_lines (limit : ℕ) (r : LineReader) (b : UInt8) :
    r.push limit b =
      { push limit { r with lines := #[] } b with
        lines := r.lines ++ (push limit { r with lines := #[] } b).lines } := by
  obtain ⟨lines, pending, overflowed⟩ := r
  simp only [push]
  split_ifs <;> simp

theorem foldl_push_lines (limit : ℕ) (r : LineReader) (bs : Bytes) :
    bs.foldl (push limit) r =
      { bs.foldl (push limit) { r with lines := #[] } with
        lines := r.lines ++ (bs.foldl (push limit) { r with lines := #[] }).lines } := by
  induction bs generalizing r with
  | nil => simp
  | cons b bs ih =>
    rw [List.foldl_cons, List.foldl_cons, ih (push limit r b),
      ih (push limit { r with lines := #[] } b), push_lines limit r b]
    simp [Array.append_assoc]

/-- The lines of a stream that are still to come, and whether it goes on for too long. -/
theorem finish_foldl_feed (limit : ℕ) (r : LineReader) (chunks : List ByteArray) :
    (chunks.foldl (feed limit) r).finish =
        r.lines.toList ++ (chunks.foldl (feed limit) { r with lines := #[] }).finish ∧
      (chunks.foldl (feed limit) r).overflowed =
        (chunks.foldl (feed limit) { r with lines := #[] }).overflowed := by
  rw [feed_chunks, feed_chunks, foldl_push_lines limit r]
  refine ⟨?_, rfl⟩
  simp only [finish]
  split_ifs <;> simp

theorem finish_overflowed {r : LineReader} (h : r.overflowed) : r.finish = r.lines.toList := by
  simp [finish, h]

end LineReader

namespace Server

/-- Requests in lines up to the first that is malformed, and what is wrong with that one. -/
def parseAll : List Bytes → List Request × Option Error
  | [] => ([], none)
  | line :: rest =>
    match Request.parse line with
    | .error e => ([], some e)
    | .ok q => (q :: (parseAll rest).1, (parseAll rest).2)

theorem parseAll_malformed {line : Bytes} {e : Error} (h : Request.parse line = .error e)
    (rest : List Bytes) : parseAll (line :: rest) = ([], some e) := by
  simp only [parseAll, h]

theorem parseAll_cons {line : Bytes} {q : Request} (h : Request.parse line = .ok q)
    (rest : List Bytes) :
    parseAll (line :: rest) = (q :: (parseAll rest).1, (parseAll rest).2) := by
  simp only [parseAll, h]

/-- The lines that a client sends, and what ends its stream. -/
def Client.lines (client : Client) : List Bytes × Error := readLines client.chunks client.ending

/-- The requests of a client up to its first malformed line, and what is wrong with that one. -/
def Client.requests (client : Client) : List Request × Option Error := parseAll client.lines.1

/-- As many steps as a session can need. -/
def Client.turns (client : Client) : ℕ := 2 * client.lines.1.length + client.chunks.length + 2

/-- How a session ends that has answered everything, by what ended the stream. -/
def Ending.ofStream (stop : Error) : Ending :=
  if stop = .endOfInput then .done else .readFailed stop

/-- A session that is going on, or has ended. -/
structure Handler where
  /-- What ends the client's stream. -/
  stop : Error
  /-- Chunks that have not been read, until the end of the stream has been. -/
  coming : Option (List ByteArray)
  reader : LineReader := {}
  /-- A response that has not been written. -/
  answer : Option (List Bytes) := none
  out : Output := {}
  ending : Option Ending := none

namespace Handler

def start (client : Client) : Handler where
  stop := client.ending
  coming := some client.chunks
  out := { limit := client.limit }

def conclude (h : Handler) (ending : Ending) : Handler := { h with ending := some ending }

def prepare (h : Handler) (lines : List Bytes) : Handler := { h with answer := some lines }

/-- Takes a chunk or the end of the stream, or ends the session where nothing is left to take. -/
def read (h : Handler) : Handler :=
  match h.coming with
  | none => h.conclude (.ofStream h.stop)
  | some chunks =>
    if h.reader.overflowed then h.conclude (.ofStream .lineTooLong)
    else match chunks with
      | [] => { h with coming := none, reader := { lines := h.reader.finish.toArray } }
      | chunk :: rest =>
        { h with coming := some rest, reader := h.reader.feed maxLineSize chunk }

/-- Writes a response. -/
def flush (h : Handler) (lines : List Bytes) : Handler :=
  match h.out.write (frame lines) with
  | .error e => h.conclude (.writeFailed e)
  | .ok out => { h with answer := none, out }

/-- Leaves out the next line. -/
def skip (h : Handler) : Handler :=
  { h with reader := { h.reader with lines := h.reader.lines.toList.tail.toArray } }

/-- One step. Other sessions can have the simulator before the response is written. -/
def turn (b : Backend σ) (h : Handler) : StateM σ Handler := do
  if h.ending.isSome then return h
  match h.answer with
  | some lines => return h.flush lines
  | none =>
    match h.reader.lines.toList with
    | [] => return h.read
    | line :: _ =>
      match ← respond b line.data.toList with
      | .error ending => return h.skip.conclude ending
      | .ok lines => return h.skip.prepare lines

/-- The lines that have not been answered, and what ends the stream after them. -/
def remaining (h : Handler) : List Bytes × Error :=
  match h.coming with
  | none => (h.reader.lines.toList.map (·.data.toList), h.stop)
  | some chunks =>
    let r := chunks.foldl (LineReader.feed maxLineSize) h.reader
    (r.finish.map (·.data.toList), if r.overflowed then .lineTooLong else h.stop)

/-- A bound on the steps that are left. -/
def due (h : Handler) : ℕ :=
  if h.ending.isSome then 0
  else 2 * h.remaining.1.length + h.coming.elim 0 (·.length + 1) + h.answer.elim 0 (fun _ => 1) + 1

/-- The next line of the stream. -/
def Next (h : Handler) (line : Bytes) : Prop :=
  h.remaining = (line :: h.skip.remaining.1, h.skip.remaining.2)

variable {b : Backend σ} {h h' : Handler} {s s' : σ}

theorem remaining_ended (hcoming : h.coming = none) :
    h.remaining = (h.reader.lines.toList.map (·.data.toList), h.stop) := by
  simp only [remaining, hcoming]

theorem remaining_coming {chunks : List ByteArray} (hcoming : h.coming = some chunks) :
    h.remaining =
      ((chunks.foldl (LineReader.feed maxLineSize) h.reader).finish.map (·.data.toList),
        if (chunks.foldl (LineReader.feed maxLineSize) h.reader).overflowed then .lineTooLong
        else h.stop) := by
  simp only [remaining, hcoming]

theorem next_of_lines {line : ByteArray} {rest : List ByteArray}
    (hlines : h.reader.lines.toList = line :: rest) : h.Next line.data.toList := by
  unfold Next
  cases hcoming : h.coming with
  | none =>
    rw [remaining_ended hcoming, remaining_ended (h := h.skip) hcoming, hlines]
    simp [skip, hlines]
  | some chunks =>
    rw [remaining_coming hcoming, remaining_coming (h := h.skip) hcoming]
    obtain ⟨hall, hover⟩ := LineReader.finish_foldl_feed maxLineSize h.reader chunks
    obtain ⟨hrest, hover'⟩ := LineReader.finish_foldl_feed maxLineSize h.skip.reader chunks
    rw [hall, hover, hrest, hover', hlines]
    simp [skip, hlines]

/-- All that a step can do to a session whose connection does not break. -/
inductive Step (b : Backend σ) (h : Handler) (s : σ) : Handler → σ → Prop
  | rests (hover : h.ending ≠ none) : Step b h s h s
  | writes {lines : List Bytes} (hlive : h.ending = none) (hanswer : h.answer = some lines) :
      Step b h s { h with answer := none, out := ⟨h.out.sent ++ frame lines, none⟩ } s
  | reads {coming : Option (List ByteArray)} {reader : LineReader} (hlive : h.ending = none)
      (hanswer : h.answer = none)
      (hremaining : ({ h with coming, reader } : Handler).remaining = h.remaining)
      (hless : coming.elim 0 (·.length + 1) < h.coming.elim 0 (·.length + 1)) :
      Step b h s { h with coming, reader } s
  | ends {stop : Error} (hlive : h.ending = none) (hanswer : h.answer = none)
      (hremaining : h.remaining = ([], stop)) :
      Step b h s (h.conclude (.ofStream stop)) s
  | refuses {line : Bytes} {e : Error} (hlive : h.ending = none) (hanswer : h.answer = none)
      (hnext : h.Next line) (hparse : Request.parse line = .error e) :
      Step b h s (h.skip.conclude (.badRequest e)) s
  | answers {line : Bytes} {q : Request} {r : Response} {t : σ} (hlive : h.ending = none)
      (hanswer : h.answer = none) (hnext : h.Next line) (hparse : Request.parse line = .ok q)
      (hexchange : b.exchange q.command q.count s = (r, t)) (hmet : q.MetBy r) :
      Step b h s (h.skip.prepare r.lines) t
  | fails {line : Bytes} {q : Request} {r : Response} {t : σ} (hlive : h.ending = none)
      (hanswer : h.answer = none) (hnext : h.Next line) (hparse : Request.parse line = .ok q)
      (hexchange : b.exchange q.command q.count s = (r, t)) (hfailed : ¬ q.MetBy r) :
      Step b h s (h.skip.conclude (.simulatorFailure q.command (q.failure r))) t

theorem step_read (hlive : h.ending = none) (hanswer : h.answer = none)
    (hnone : h.reader.lines.toList = []) : Step b h s h.read s := by
  unfold read
  split
  next hcoming => exact .ends hlive hanswer (by rw [remaining_ended hcoming, hnone]; rfl)
  next chunks hcoming =>
    split_ifs with hover
    · refine .ends hlive hanswer ?_
      -- a reader with too long a line takes nothing from the chunks that follow
      rw [remaining_coming hcoming, LineReader.feed_chunks, LineReader.foldl_overflowed hover,
        LineReader.finish_overflowed hover, hnone, if_pos hover]
      rfl
    · split
      · refine .reads hlive hanswer ?_ (by simp [hcoming])
        rw [remaining_ended rfl, remaining_coming hcoming]
        simp [hover]
      · refine .reads hlive hanswer ?_ (by simp [hcoming])
        rw [remaining_coming rfl, remaining_coming hcoming, List.foldl_cons]

theorem flush_unlimited (hlimit : h.out.limit = none) (lines : List Bytes) :
    h.flush lines = { h with answer := none, out := ⟨h.out.sent ++ frame lines, none⟩ } := by
  simp only [flush, Output.write_unlimited hlimit]

theorem turn_over (hover : h.ending ≠ none) : h.turn b s = (h, s) := by
  rw [turn, if_pos (Option.isSome_iff_ne_none.mpr hover)]
  rfl

theorem turn_answer {lines : List Bytes} (hlive : h.ending = none)
    (hanswer : h.answer = some lines) : h.turn b s = (h.flush lines, s) := by
  rw [turn, if_neg (by simp [hlive])]
  simp only [hanswer]
  rfl

theorem turn_read (hlive : h.ending = none) (hanswer : h.answer = none)
    (hnone : h.reader.lines.toList = []) : h.turn b s = (h.read, s) := by
  rw [turn, if_neg (by simp [hlive])]
  simp only [hanswer, hnone]
  rfl

theorem turn_respond {line : ByteArray} {rest : List ByteArray}
    {given : Except Ending (List Bytes)} (hlive : h.ending = none) (hanswer : h.answer = none)
    (hlines : h.reader.lines.toList = line :: rest)
    (hrespond : respond b line.data.toList s = (given, s')) :
    h.turn b s = (given.casesOn h.skip.conclude h.skip.prepare, s') := by
  rw [turn, if_neg (by simp [hlive])]
  simp only [hanswer, hlines, bind, StateT.bind, hrespond]
  cases given <;> rfl

theorem step_turn (hlimit : h.out.limit = none) (hturn : h.turn b s = (h', s')) :
    Step b h s h' s' := by
  by_cases hlive : h.ending = none
  · cases hanswer : h.answer with
    | some lines =>
      rw [turn_answer hlive hanswer, flush_unlimited hlimit] at hturn
      obtain ⟨rfl, rfl⟩ := Prod.mk.inj hturn
      exact .writes hlive hanswer
    | none =>
      cases hlines : h.reader.lines.toList with
      | nil =>
        rw [turn_read hlive hanswer hlines] at hturn
        obtain ⟨rfl, rfl⟩ := Prod.mk.inj hturn
        exact step_read hlive hanswer hlines
      | cons line rest =>
        have hnext := next_of_lines hlines
        cases hparse : Request.parse line.data.toList with
        | error e =>
          rw [turn_respond hlive hanswer hlines (respond_malformed hparse)] at hturn
          obtain ⟨rfl, rfl⟩ := Prod.mk.inj hturn
          exact .refuses hlive hanswer hnext hparse
        | ok q =>
          obtain ⟨r, t, hexchange⟩ : ∃ r t, b.exchange q.command q.count s = (r, t) := ⟨_, _, rfl⟩
          by_cases hmet : q.MetBy r
          · rw [turn_respond hlive hanswer hlines (respond_met hparse hexchange hmet)] at hturn
            obtain ⟨rfl, rfl⟩ := Prod.mk.inj hturn
            exact .answers hlive hanswer hnext hparse hexchange hmet
          · rw [turn_respond hlive hanswer hlines (respond_failed hparse hexchange hmet)] at hturn
            obtain ⟨rfl, rfl⟩ := Prod.mk.inj hturn
            exact .fails hlive hanswer hnext hparse hexchange hmet
  · rw [turn_over hlive] at hturn
    obtain ⟨rfl, rfl⟩ := Prod.mk.inj hturn
    exact .rests hlive

theorem Step.limit (hstep : Step b h s h' s') (hlimit : h.out.limit = none) :
    h'.out.limit = none := by
  cases hstep with
  | writes => rfl
  | rests | reads | ends | refuses | answers | fails => exact hlimit

/-- A session that has ended does nothing more. -/
theorem Step.eq_of_ended (hstep : Step b h s h' s') (hover : h.ending ≠ none) :
    h' = h ∧ s' = s := by
  cases hstep with
  | rests => exact ⟨rfl, rfl⟩
  | writes hlive | reads hlive | ends hlive | refuses hlive | answers hlive | fails hlive =>
    exact absurd hlive hover

theorem due_eq_zero : h.due = 0 ↔ h.ending ≠ none := by
  unfold due
  split_ifs with hover
  · exact ⟨fun _ => Option.isSome_iff_ne_none.mp hover, fun _ => rfl⟩
  · simpa using hover

theorem due_live (hlive : h.ending = none) :
    h.due = 2 * h.remaining.1.length + h.coming.elim 0 (·.length + 1) +
      h.answer.elim 0 (fun _ => 1) + 1 := by
  rw [due, if_neg (by simp [hlive])]

theorem due_start (client : Client) : (start client).due = client.turns := rfl

/-- A session that gets its turns comes to an end. -/
theorem Step.due_lt (hstep : Step b h s h' s') (hlive : h.ending = none) : h'.due < h.due := by
  rw [due_live hlive]
  cases hstep with
  | rests hover => exact absurd hlive hover
  | writes _ hanswer =>
    rw [due_live, hanswer]
    · exact Nat.lt_succ_self _
    · exact hlive
  | reads _ hanswer hremaining hless =>
    rw [due_live, hremaining]
    · simp only [hanswer, Option.elim_none]
      omega
    · exact hlive
  | answers _ hanswer hnext =>
    rw [due_live, hnext, hanswer]
    · change 2 * h.skip.remaining.1.length + h.coming.elim 0 (·.length + 1) + 1 + 1 < _
      simp only [List.length_cons, Option.elim_none]
      omega
    · exact hlive
  | ends | refuses | fails =>
    rw [due_eq_zero.mpr (by simp [conclude])]
    exact Nat.succ_pos _

theorem Step.due_le (hstep : Step b h s h' s') : h'.due ≤ h.due - 1 := by
  by_cases hlive : h.ending = none
  · exact Nat.le_sub_one_of_lt (hstep.due_lt hlive)
  · rw [(hstep.eq_of_ended hlive).1, due_eq_zero.mpr hlive]

/-- What a session comes to when its lines have been answered and its stream has ended. -/
def outcome (stop : Error) (answered : (Output × Option Ending) × σ) : (Output × Ending) × σ :=
  ((answered.1.1, answered.1.2.getD (.ofStream stop)), answered.2)

/-- All that a session has still to do, without any other between. -/
def complete (b : Backend σ) (h : Handler) : StateM σ (Output × Ending) := fun s =>
  match h.ending with
  | some ending => ((h.out, ending), s)
  | none =>
    outcome h.remaining.2
      (respondAll b h.remaining.1 ⟨h.out.sent ++ frame (h.answer.getD []), none⟩ s)

theorem complete_ended {ending : Ending} (hending : h.ending = some ending) :
    h.complete b s = ((h.out, ending), s) := by
  simp only [complete, hending]

theorem complete_live (hlive : h.ending = none) :
    h.complete b s = outcome h.remaining.2
      (respondAll b h.remaining.1 ⟨h.out.sent ++ frame (h.answer.getD []), none⟩ s) := by
  simp only [complete, hlive]

theorem complete_start {client : Client} (hlimit : client.limit = none) :
    (start client).complete b s = session b client s := by
  obtain ⟨out, ending, t, hrun⟩ : ∃ out ending t,
      respondAll b (readLines client.chunks client.ending).1 { limit := client.limit } s =
        ((out, ending), t) := ⟨_, _, _, rfl⟩
  have hsession : session b client s =
      ((out, ending.getD (.ofStream (readLines client.chunks client.ending).2)), t) := by
    simp only [session, bind, StateT.bind, hrun]
    cases ending <;> rfl
  rw [hlimit] at hrun
  rw [hsession, complete_live rfl]
  exact congrArg (outcome _) hrun

/-- A step takes nothing away from what a session does, and adds nothing. -/
theorem Step.complete_eq (hstep : Step b h s h' s') (hlimit : h.out.limit = none) :
    h'.complete b s' = h.complete b s := by
  have hout : h.out = ⟨h.out.sent ++ frame [], none⟩ := by
    rw [← hlimit]
    exact congrArg (Output.mk · h.out.limit) (List.append_nil _).symm
  cases hstep with
  | rests => rfl
  | writes hlive hanswer =>
    rw [complete_live hlive, complete_live (by exact hlive), hanswer]
    change outcome _ (respondAll b h.remaining.1 ⟨_ ++ _ ++ [], none⟩ s) = _
    rw [List.append_nil]
    rfl
  | reads hlive hanswer hremaining hless =>
    rw [complete_live hlive, complete_live (by exact hlive), hremaining]
  | ends hlive hanswer hremaining =>
    rw [complete_ended rfl, complete_live hlive, hremaining, hanswer, Option.getD_none, ← hout]
    rfl
  | refuses hlive hanswer hnext hparse =>
    rw [complete_ended rfl, complete_live hlive, hnext, respondAll_ended (respond_malformed hparse),
      hanswer, Option.getD_none, ← hout]
    rfl
  | answers hlive hanswer hnext hparse hexchange hmet =>
    rw [complete_live hlive, complete_live (by exact hlive), hnext,
      respondAll_answered (respond_met hparse hexchange hmet), hanswer]
    change _ = outcome _ (respondAll b _ ⟨h.out.sent ++ [] ++ _, none⟩ s')
    rw [List.append_nil]
    rfl
  | fails hlive hanswer hnext hparse hexchange hfailed =>
    rw [complete_ended rfl, complete_live hlive, hnext,
      respondAll_ended (respond_failed hparse hexchange hfailed), hanswer, Option.getD_none, ← hout]
    rfl

/-- How a session stands that has brought `own` requests to the simulator, with the responses. -/
inductive Standing (client : Client) (h : Handler) : List (Request × Response) → Prop
  | going {own : List (Request × Response)} (hlive : h.ending = none)
      (hmet : ∀ p ∈ own, p.1.MetBy p.2)
      (hahead : client.requests =
        (own.map Prod.fst ++ (parseAll h.remaining.1).1, (parseAll h.remaining.1).2))
      (hstop : h.remaining.2 = client.lines.2)
      (hsent : h.out.sent ++ frame (h.answer.getD []) = frame (own.flatMap (·.2.lines))) :
      Standing client h own
  | finished {own : List (Request × Response)}
      (hending : h.ending = some (.ofStream client.lines.2)) (hmet : ∀ p ∈ own, p.1.MetBy p.2)
      (hall : client.requests = (own.map Prod.fst, none))
      (hsent : h.out.sent = frame (own.flatMap (·.2.lines))) : Standing client h own
  | malformed {own : List (Request × Response)} {e : Error}
      (hending : h.ending = some (.badRequest e)) (hmet : ∀ p ∈ own, p.1.MetBy p.2)
      (hall : client.requests = (own.map Prod.fst, some e))
      (hsent : h.out.sent = frame (own.flatMap (·.2.lines))) : Standing client h own
  | failed {own : List (Request × Response)} {q : Request} {r : Response}
      (hending : h.ending = some (.simulatorFailure q.command (q.failure r)))
      (hmet : ∀ p ∈ own, p.1.MetBy p.2) (hfailed : ¬ q.MetBy r)
      (hbegins : own.map Prod.fst ++ [q] <+: client.requests.1)
      (hsent : h.out.sent = frame (own.flatMap (·.2.lines))) :
      Standing client h (own ++ [(q, r)])

variable {client : Client} {own : List (Request × Response)}

theorem standing_start (client : Client) : Standing client (start client) [] :=
  .going rfl (by simp) rfl rfl rfl

theorem Standing.isPrefix (hstanding : Standing client h own) :
    own.map Prod.fst <+: client.requests.1 := by
  cases hstanding with
  | going _ _ hahead => exact ⟨_, (congrArg Prod.fst hahead).symm⟩
  | finished _ _ hall | malformed _ _ hall => rw [hall]
  | failed _ _ _ hbegins => simpa using hbegins

/-- A step leaves the simulator alone, or it brings one more request to it. -/
theorem Standing.step (hstanding : Standing client h own) (hstep : Step b h s h' s') :
    (s' = s ∧ Standing client h' own) ∨
    ∃ q r, b.exchange q.command q.count s = (r, s') ∧ Standing client h' (own ++ [(q, r)]) := by
  by_cases hover : h.ending = none
  · obtain ⟨-, hmet, hahead, hstop, hsent⟩ | ⟨hending, -, -, -⟩ | ⟨hending, -, -, -⟩ |
      ⟨hending, -, -, -, -⟩ := hstanding
    · have hwritten (hanswer : h.answer = none) :
          h.out.sent = frame (own.flatMap (·.2.lines)) := by
        rw [hanswer] at hsent
        exact (List.append_nil _).symm.trans hsent
      cases hstep with
      | rests hover' => exact absurd hover hover'
      | writes hlive hanswer =>
        refine .inl ⟨rfl, .going hlive hmet hahead hstop ?_⟩
        rw [hanswer] at hsent
        exact (List.append_nil _).trans hsent
      | reads hlive hanswer hremaining =>
        refine .inl ⟨rfl, .going hlive hmet ?_ ?_ hsent⟩
        · rw [hremaining, hahead]
        · rw [hremaining, hstop]
      | ends hlive hanswer hremaining =>
        rw [hremaining] at hahead hstop
        refine .inl ⟨rfl, .finished ?_ hmet ?_ (hwritten hanswer)⟩
        · rw [← hstop]
          rfl
        · simpa [parseAll] using hahead
      | refuses hlive hanswer hnext hparse =>
        rw [hnext, parseAll_malformed hparse, List.append_nil] at hahead
        exact .inl ⟨rfl, .malformed rfl hmet hahead (hwritten hanswer)⟩
      | answers hlive hanswer hnext hparse hexchange hr =>
        rw [hnext, parseAll_cons hparse] at hahead
        rw [hnext] at hstop
        refine .inr ⟨_, _, hexchange, .going hlive ?_ ?_ hstop ?_⟩
        · exact List.forall_mem_append.mpr ⟨hmet, List.forall_mem_singleton.mpr hr⟩
        · rw [hahead, List.map_append, List.append_assoc]
          rfl
        · rw [List.flatMap_append, frame_append, ← hwritten hanswer]
          simp [prepare, skip]
      | fails hlive hanswer hnext hparse hexchange hr =>
        rw [hnext, parseAll_cons hparse] at hahead
        refine .inr ⟨_, _, hexchange, .failed rfl hmet hr ?_ (hwritten hanswer)⟩
        exact ⟨_, by rw [hahead, List.append_assoc, List.singleton_append]⟩
    all_goals simp [hover] at hending
  · obtain ⟨rfl, rfl⟩ := hstep.eq_of_ended hover
    exact .inl ⟨rfl, hstanding⟩

/-- The requests that a session can still bring to the simulator. -/
def ahead (h : Handler) : List Request :=
  if h.ending.isSome then [] else (parseAll h.remaining.1).1

theorem ahead_live (hlive : h.ending = none) : h.ahead = (parseAll h.remaining.1).1 := by
  rw [ahead, if_neg (by simp [hlive])]

@[simp] theorem ahead_conclude (h : Handler) (ending : Ending) :
    (h.conclude ending).ahead = [] := by
  simp [ahead, conclude]

theorem ahead_next {line : Bytes} {q : Request} (hlive : h.ending = none) (hnext : h.Next line)
    (hparse : Request.parse line = .ok q) : h.ahead = q :: (parseAll h.skip.remaining.1).1 := by
  rw [ahead_live hlive, hnext, parseAll_cons hparse]

theorem ending_of_ahead {q : Request} {rest : List Request} (hahead : h.ahead = q :: rest) :
    h.ending = none := by
  by_contra hover
  rw [ahead, if_pos (Option.isSome_iff_ne_none.mpr hover)] at hahead
  cases hahead

/-- Only the first of the requests ahead can be the next that comes to the simulator. -/
theorem Step.ahead_eq (hstep : Step b h s h' s') :
    (s' = s ∧ h'.ahead = h.ahead) ∨
    ∃ q rest r, h.ahead = q :: rest ∧ b.exchange q.command q.count s = (r, s') ∧
      h'.ahead = if q.MetBy r then rest else [] := by
  cases hstep with
  | rests => exact .inl ⟨rfl, rfl⟩
  | writes hlive =>
    refine .inl ⟨rfl, ?_⟩
    rw [ahead_live hlive, ahead_live]
    · rfl
    · exact hlive
  | reads hlive _ hremaining =>
    refine .inl ⟨rfl, ?_⟩
    rw [ahead_live hlive, ahead_live, hremaining]
    exact hlive
  | ends hlive _ hremaining =>
    refine .inl ⟨rfl, ?_⟩
    rw [ahead_live hlive, ahead_conclude, hremaining]
    rfl
  | refuses hlive _ hnext hparse =>
    refine .inl ⟨rfl, ?_⟩
    rw [ahead_live hlive, ahead_conclude, hnext, parseAll_malformed hparse]
  | answers hlive _ hnext hparse hexchange hmet =>
    refine .inr ⟨_, _, _, ahead_next hlive hnext hparse, hexchange, ?_⟩
    rw [if_pos hmet, ahead_live]
    · rfl
    · exact hlive
  | fails hlive _ hnext hparse hexchange hfailed =>
    refine .inr ⟨_, _, _, ahead_next hlive hnext hparse, hexchange, ?_⟩
    rw [if_neg hfailed, ahead_conclude]

end Handler

end Server

end GuardedRtl.Sim
