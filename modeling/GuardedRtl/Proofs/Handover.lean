import GuardedRtl.Sim.LineQueue
import Mathlib.Data.List.Basic

/-! A queue of lines between two that run at the same time. One puts lines and at last closes the
queue; each time it first changes the queue and then, in a step of its own, leaves a token for the
other, unless one lies there already. The other takes lines; where it finds nothing it waits for a
token, or until its time is over, and looks again.

What a step can do is said once (`Handover.Step`). Lines are neither lost nor made up
(`Step.conserves`), the end is for good (`Concluded`), and nobody waits for what is there (`Alert`).
Main statements: `Handover.run_delivers`, `Handover.run_wakes`. -/

namespace GuardedRtl.Sim

open Text (Bytes)

/-- Nothing to take, but there may be later. -/
def LineQueue.Silent (q : LineQueue) : Prop := q.lines = [] ∧ q.ending = none

instance (q : LineQueue) : Decidable q.Silent :=
  inferInstanceAs (Decidable (q.lines = [] ∧ q.ending = none))

/-- Where the one that takes lines is: in no call, about to look into the queue, or waiting for a
token. A call is `timed` if it waits only for so long. -/
inductive Taker where
  | away
  | looking (timed : Bool)
  | waiting (timed : Bool)
  deriving DecidableEq

/-- How a call ended: with what was found in the queue, or because the time was over. -/
inductive Outcome where
  | found (answer : Except Error Bytes)
  | timedOut
  deriving DecidableEq

/-- What the caller gets. -/
def Outcome.result : Outcome → Except Error Bytes
  | .found answer => answer
  | .timedOut => .error .timeout

def Outcome.line? : Outcome → Option Bytes
  | .found (.ok line) => some line
  | _ => none

/-- What the two do, one step at a time. A queue that is closed without a cause has come to the end
of its input. -/
inductive Move where
  | put (line : Bytes)
  | close (cause : Option Error)
  | signal
  | call (timed : Bool)
  | look
  | wake
  | expire

namespace Move

def line? : Move → Option Bytes
  | .put line => some line
  | _ => none

def ending? : Move → Option Error
  | .close cause => some (cause.getD .endOfInput)
  | _ => none

end Move

/-- The queue and the two at work on it. `unsent` tells that the queue has been changed and the
token for that is not sent yet, `returned` what the calls so far have ended with. -/
structure Handover where
  queue : LineQueue := {}
  token : Bool := false
  unsent : Bool := false
  taker : Taker := .away
  returned : List Outcome := []
  deriving DecidableEq

namespace Handover

/-- Changes the queue, which is possible until it is closed. -/
def produce (h : Handover) (queue : LineQueue) : Option Handover :=
  if h.unsent ∨ h.queue.ending.isSome then none else some { h with queue, unsent := true }

/-- Ends a call. -/
def answer (h : Handover) (queue : LineQueue) (o : Outcome) : Handover :=
  { h with queue, taker := .away, returned := h.returned ++ [o] }

/-- One step, if it is possible. -/
def step (h : Handover) : Move → Option Handover
  | .put line => h.produce (h.queue.put line)
  | .close cause => h.produce (h.queue.close (cause.getD .endOfInput))
  | .signal => if h.unsent then some { h with token := true, unsent := false } else none
  | .call timed => if h.taker = .away then some { h with taker := .looking timed } else none
  | .look =>
    match h.taker with
    | .looking timed =>
      if h.queue.Silent then some { h with taker := .waiting timed }
      else some (h.answer h.queue.get.2 (.found h.queue.get.1))
    | _ => none
  | .wake =>
    match h.taker, h.token with
    | .waiting timed, true => some { h with taker := .looking timed, token := false }
    | _, _ => none
  | .expire => if h.taker = .waiting true then some (h.answer h.queue .timedOut) else none

def run (h : Handover) : List Move → Option Handover
  | [] => some h
  | m :: ms => (h.step m).bind fun h' => h'.run ms

/-- The lines that calls have returned. -/
def delivered (h : Handover) : List Bytes := h.returned.filterMap Outcome.line?

variable {h h' : Handover} {m : Move} {ms : List Move}

/-- What one step does, and when it is possible. -/
inductive Step (h : Handover) : Move → Handover → Prop
  | put (line : Bytes) (hsent : h.unsent = false) (hopen : h.queue.ending = none) :
    Step h (.put line) { h with queue := h.queue.put line, unsent := true }
  | close (cause : Option Error) (hsent : h.unsent = false) (hopen : h.queue.ending = none) :
    Step h (.close cause)
      { h with queue := h.queue.close (cause.getD .endOfInput), unsent := true }
  | signal (hunsent : h.unsent = true) : Step h .signal { h with token := true, unsent := false }
  | call (timed : Bool) (haway : h.taker = .away) :
    Step h (.call timed) { h with taker := .looking timed }
  | wait (timed : Bool) (hlooking : h.taker = .looking timed) (hsilent : h.queue.Silent) :
    Step h .look { h with taker := .waiting timed }
  | take (timed : Bool) (hlooking : h.taker = .looking timed) (line : Bytes) (rest : List Bytes)
      (hlines : h.queue.lines = line :: rest) :
    Step h .look (h.answer { h.queue with lines := rest } (.found (.ok line)))
  | finish (timed : Bool) (hlooking : h.taker = .looking timed) (e : Error)
      (hlines : h.queue.lines = []) (hending : h.queue.ending = some e) :
    Step h .look (h.answer h.queue (.found (.error e)))
  | wake (timed : Bool) (hwaiting : h.taker = .waiting timed) (htoken : h.token = true) :
    Step h .wake { h with taker := .looking timed, token := false }
  | expire (hwaiting : h.taker = .waiting true) : Step h .expire (h.answer h.queue .timedOut)

theorem produce_eq_some {queue : LineQueue} (hstep : h.produce queue = some h') :
    h.unsent = false ∧ h.queue.ending = none ∧ h' = { h with queue, unsent := true } := by
  unfold produce at hstep
  split_ifs at hstep with hbusy
  rw [not_or, Bool.not_eq_true, Option.not_isSome_iff_eq_none] at hbusy
  exact ⟨hbusy.1, hbusy.2, (Option.some.inj hstep).symm⟩

theorem step_look {timed : Bool} (hlooking : h.taker = .looking timed)
    (hstep : h.step .look = some h') : Step h .look h' := by
  simp only [step, hlooking] at hstep
  obtain ⟨⟨lines, ending⟩, token, unsent, taker, returned⟩ := h
  split_ifs at hstep with hsilent
  · obtain rfl := Option.some.inj hstep
    exact .wait timed hlooking hsilent
  · obtain rfl := Option.some.inj hstep
    cases lines with
    | cons line rest => exact .take timed hlooking line rest rfl
    | nil =>
      cases ending with
      | some e => exact .finish timed hlooking e rfl rfl
      | none => exact absurd ⟨rfl, rfl⟩ hsilent

theorem step_cases (hstep : h.step m = some h') : Step h m h' := by
  cases m with
  | put line =>
    obtain ⟨hsent, hopen, rfl⟩ := produce_eq_some hstep
    exact .put line hsent hopen
  | close cause =>
    obtain ⟨hsent, hopen, rfl⟩ := produce_eq_some hstep
    exact .close cause hsent hopen
  | signal =>
    simp only [step] at hstep
    split_ifs at hstep with hunsent
    obtain rfl := Option.some.inj hstep
    exact .signal hunsent
  | call timed =>
    simp only [step] at hstep
    split_ifs at hstep with haway
    obtain rfl := Option.some.inj hstep
    exact .call timed haway
  | look =>
    cases htaker : h.taker with
    | looking timed => exact step_look htaker hstep
    | away => simp [step, htaker] at hstep
    | waiting timed => simp [step, htaker] at hstep
  | wake =>
    simp only [step] at hstep
    split at hstep
    next timed hwaiting htoken =>
      obtain rfl := Option.some.inj hstep
      exact .wake timed hwaiting htoken
    · cases hstep
  | expire =>
    simp only [step] at hstep
    split_ifs at hstep with hwaiting
    obtain rfl := Option.some.inj hstep
    exact .expire hwaiting

theorem run_cons (hrun : h.run (m :: ms) = some h') : ∃ h₁, Step h m h₁ ∧ h₁.run ms = some h' := by
  obtain ⟨h₁, hstep, hrest⟩ := Option.bind_eq_some_iff.mp hrun
  exact ⟨h₁, step_cases hstep, hrest⟩

theorem run_append (ms ms' : List Move) (h : Handover) :
    h.run (ms ++ ms') = (h.run ms).bind fun h' => h'.run ms' := by
  induction ms generalizing h with
  | nil => rfl
  | cons m ms ih =>
    rw [List.cons_append, run, run, Option.bind_assoc]
    exact Option.bind_congr fun h₁ _ => ih h₁

/-- What every step keeps is kept by a run. -/
theorem run_induction {P : Handover → Prop} (hstep : ∀ h m h', Step h m h' → P h → P h')
    (hrun : h.run ms = some h') (hstart : P h) : P h' := by
  induction ms generalizing h with
  | nil =>
    obtain rfl := Option.some.inj hrun
    exact hstart
  | cons m ms ih =>
    obtain ⟨h₁, hfirst, hrest⟩ := run_cons hrun
    exact ih hrest (hstep h m h₁ hfirst hstart)

/-! Lines -/

/-- What was delivered and what is still in the queue is what was there before and what was put. -/
theorem Step.conserves (hstep : Step h m h') :
    h'.delivered ++ h'.queue.lines = h.delivered ++ h.queue.lines ++ m.line?.toList := by
  cases hstep with
  | put => simp [delivered, LineQueue.put, Move.line?]
  | take _ _ line rest hlines => simp [delivered, answer, Outcome.line?, Move.line?, hlines]
  | close | signal | call | wait | finish | wake | expire =>
    simp [delivered, answer, LineQueue.close, Outcome.line?, Move.line?]

theorem run_conserves (hrun : h.run ms = some h') :
    h'.delivered ++ h'.queue.lines = h.delivered ++ h.queue.lines ++ ms.filterMap Move.line? := by
  induction ms generalizing h with
  | nil =>
    obtain rfl := Option.some.inj hrun
    simp
  | cons m ms ih =>
    obtain ⟨h₁, hstep, hrest⟩ := run_cons hrun
    rw [ih hrest, hstep.conserves, List.append_assoc _ m.line?.toList]
    cases hm : m.line? <;> simp [hm]

/-! The end -/

theorem Step.ending_eq (hstep : Step h m h') :
    h'.queue.ending = h.queue.ending.or m.ending? := by
  cases hstep with
  | close _ _ hopen => simp [LineQueue.close, Move.ending?, hopen]
  | put | signal | call | wait | take | finish | wake | expire =>
    simp [answer, LineQueue.put, Move.ending?]

theorem run_ending (hrun : h.run ms = some h') :
    h'.queue.ending = h.queue.ending.or (ms.findSome? Move.ending?) := by
  induction ms generalizing h with
  | nil =>
    obtain rfl := Option.some.inj hrun
    simp
  | cons m ms ih =>
    obtain ⟨h₁, hstep, hrest⟩ := run_cons hrun
    rw [ih hrest, hstep.ending_eq, Option.or_assoc, List.findSome?_cons]
    cases m.ending? <;> rfl

/-- The error that ends the queue is returned only when nothing is left, and then by every call. -/
structure Concluded (h : Handover) : Prop where
  drained : ∀ e, .found (.error e) ∈ h.returned → h.queue = ⟨[], some e⟩
  lasting : h.returned.Pairwise fun o o' => ∀ e, o = .found (.error e) → o' = o
  unawaited : ∀ timed, h.taker = .waiting timed → ∀ e, .found (.error e) ∉ h.returned

theorem concluded_start : Concluded {} := by
  refine ⟨?_, List.Pairwise.nil, ?_⟩
  · intro e he
    cases he
  · intro timed htaker
    cases htaker

/-- A call returns `o`, and the queue is left as `queue`. -/
theorem Concluded.answer {queue : LineQueue} {o : Outcome} (hc : h.Concluded)
    (hdrained : ∀ e, .found (.error e) ∈ h.returned ++ [o] → queue = ⟨[], some e⟩)
    (hlast : ∀ e, .found (.error e) ∈ h.returned → o = .found (.error e)) :
    (h.answer queue o).Concluded := by
  refine ⟨hdrained, ?_, ?_⟩
  · refine List.pairwise_append.mpr ⟨hc.lasting, List.pairwise_singleton .., ?_⟩
    rintro _ ho o' ho' e rfl
    rw [List.mem_singleton.mp ho']
    exact hlast e ho
  · intro timed htaker
    cases htaker

theorem Concluded.step (hc : h.Concluded) (hstep : Step h m h') : h'.Concluded := by
  have hopened (hopen : h.queue.ending = none) (e : Error) : .found (.error e) ∉ h.returned := by
    intro he
    rw [hc.drained e he] at hopen
    cases hopen
  cases hstep with
  | put _ _ hopen | close _ _ hopen =>
    exact ⟨fun e he => absurd he (hopened hopen e), hc.lasting, hc.unawaited⟩
  | signal => exact ⟨hc.drained, hc.lasting, hc.unawaited⟩
  | call | wake =>
    refine ⟨hc.drained, hc.lasting, ?_⟩
    intro timed htaker
    cases htaker
  | wait _ _ hsilent => exact ⟨hc.drained, hc.lasting, fun _ _ => hopened hsilent.2⟩
  | take _ _ line rest hlines =>
    have hnone (e : Error) : .found (.error e) ∉ h.returned := by
      intro he
      rw [hc.drained e he] at hlines
      cases hlines
    refine hc.answer ?_ fun e he => absurd he (hnone e)
    intro e he
    simp [hnone e] at he
  | finish _ _ e hlines hending =>
    have hqueue : h.queue = ⟨[], some e⟩ := by rw [← hlines, ← hending]
    have hsame (e' : Error) (he' : .found (.error e') ∈ h.returned) : e' = e := by
      have hqueue' := hc.drained e' he'
      rw [hqueue] at hqueue'
      cases hqueue'
      rfl
    refine hc.answer ?_ fun e' he' => by rw [hsame e' he']
    intro e' he'
    rcases List.mem_append.mp he' with he' | he'
    · exact hc.drained e' he'
    · cases List.mem_singleton.mp he'
      exact hqueue
  | expire hwaiting =>
    have hnone (e : Error) := hc.unawaited true hwaiting e
    refine hc.answer ?_ fun e he => absurd he (hnone e)
    intro e he
    simp [hnone e] at he

theorem Concluded.run (hc : h.Concluded) (hrun : h.run ms = some h') : h'.Concluded :=
  run_induction (fun _ _ _ hstep hc => hc.step hstep) hrun hc

/-! Tokens -/

/-- Nobody waits for what is there, unless a token lies ready or is about to be sent. -/
def Alert (h : Handover) : Prop :=
  ∀ timed, h.taker = .waiting timed → ¬ h.queue.Silent → h.token ∨ h.unsent

theorem alert_start : Alert {} := by
  intro timed htaker
  cases htaker

/-- Whoever waits has just found nothing, or the last step was one of the other's: then it has a
token to send, or has sent it. Tokens that were left over do no harm. -/
theorem Step.alert (hstep : Step h m h') : h'.Alert := by
  intro timed htaker hnews
  cases hstep with
  | put | close => exact .inr rfl
  | signal => exact .inl rfl
  | wait _ _ hsilent => exact absurd hsilent hnews
  | call | wake | take | finish | expire => cases htaker

theorem run_alert (hrun : run {} ms = some h) : h.Alert :=
  run_induction (fun _ _ _ hstep _ => hstep.alert) hrun alert_start

/-- A token lets the one that waits look, and return what is there. -/
theorem run_wake_look {timed : Bool} (hwaiting : h.taker = .waiting timed) (htoken : h.token)
    (hnews : ¬ h.queue.Silent) :
    h.run [.wake, .look] =
      some ({ h with token := false }.answer h.queue.get.2 (.found h.queue.get.1)) := by
  obtain ⟨queue, token, unsent, taker, returned⟩ := h
  cases hwaiting
  cases htoken
  simp [run, step, hnews, answer]

theorem run_signal (hunsent : h.unsent) (ms : List Move) :
    h.run (.signal :: ms) = { h with token := true, unsent := false }.run ms := by
  simp [run, step, hunsent]

/-! The two that run at the same time, and what they are made of -/

/-- A call that nothing interrupts returns what `LineQueue.get` returns. -/
theorem run_get (haway : h.taker = .away) :
    ∃ o : Outcome, o.result = h.queue.get.1 ∧
      h.run (.call true :: .look :: if h.queue.Silent then [.expire] else []) =
        some (h.answer h.queue.get.2 o) := by
  obtain ⟨⟨lines, ending⟩, token, unsent, taker, returned⟩ := h
  cases haway
  cases lines with
  | cons line rest =>
    refine ⟨.found (.ok line), rfl, ?_⟩
    simp [run, step, LineQueue.Silent, LineQueue.get, answer]
  | nil =>
    cases ending with
    | some e =>
      refine ⟨.found (.error e), rfl, ?_⟩
      simp [run, step, LineQueue.Silent, LineQueue.get, answer]
    | none =>
      refine ⟨.timedOut, rfl, ?_⟩
      simp [run, step, LineQueue.Silent, LineQueue.get, answer]

/-- The steps that put lines and then close the queue. -/
def production (lines : List Bytes) (ending : Error) : List Move :=
  lines.flatMap (fun line => [.put line, .signal]) ++ [.close (some ending), .signal]

/-- Lines that are put one after the other are those that `LineQueue.pump` puts. -/
theorem run_pump (hsent : h.unsent = false) (hopen : h.queue.ending = none)
    (chunks : List ByteArray) (ending : Error) :
    h.run (production (readLines chunks ending).1 (readLines chunks ending).2) =
      some { h with queue := h.queue.pump chunks ending, token := true } := by
  rw [LineQueue.pump]
  generalize readLines chunks ending = r
  obtain ⟨lines, e⟩ := r
  induction lines generalizing h with
  | nil =>
    simp [production, run, step, produce, hsent, hopen, LineQueue.putAll, LineQueue.close]
  | cons line lines ih =>
    obtain ⟨queue, token, unsent, taker, returned⟩ := h
    cases hsent
    have hrest := ih (h := ⟨queue.put line, true, false, taker, returned⟩) rfl hopen
    simp only [production, List.flatMap_cons, List.cons_append, List.nil_append] at hrest ⊢
    have hopen' : queue.ending.isSome = false := by simpa using hopen
    simp only [run, step, produce, hopen', Bool.false_eq_true, or_self, if_false,
      Option.bind_some, if_true, hrest]
    simp [LineQueue.putAll, LineQueue.put, LineQueue.close]

/-- However the two take their turns: what calls have returned are the lines put so far, in order,
up to those that wait in the queue. A call that times out has taken nothing. The error that ends
the queue is returned once the queue has been closed with it and every line has been returned; from
then on nobody waits, and every call returns it. -/
theorem run_delivers (moves : List Move) (h : Handover) (hrun : run {} moves = some h) :
    moves.filterMap Move.line? = h.delivered ++ h.queue.lines ∧
    (∀ before during h₀, moves = before ++ during → run {} before = some h₀ →
      h.returned = h₀.returned ++ [.timedOut] →
      h.queue.lines = h₀.queue.lines ++ during.filterMap Move.line?) ∧
    ∀ before e after, h.returned = before ++ .found (.error e) :: after →
      moves.findSome? Move.ending? = some e ∧
      before.filterMap Outcome.line? = moves.filterMap Move.line? ∧
      (∀ o ∈ after, o = .found (.error e)) ∧
      (∀ timed, h.taker ≠ .waiting timed) ∧
      ∀ timed, h.taker = .looking timed →
        h.step .look = some (h.answer h.queue (.found (.error e))) := by
  have hlines := run_conserves hrun
  refine ⟨hlines.symm, ?_, ?_⟩
  · rintro before during h₀ rfl hbefore hreturned
    rw [run_append, hbefore, Option.bind_some] at hrun
    have hduring := run_conserves hrun
    have hsame : h.delivered = h₀.delivered := by simp [delivered, hreturned, Outcome.line?]
    rw [hsame, List.append_assoc] at hduring
    exact List.append_cancel_left hduring
  · intro before e after hreturned
    have hc := concluded_start.run hrun
    have hmem : .found (.error e) ∈ h.returned := by simp [hreturned]
    have hqueue := hc.drained e hmem
    have hlasting := hc.lasting
    rw [hreturned] at hlasting
    have hafter : ∀ o ∈ after, o = .found (.error e) := fun o ho =>
      List.rel_of_pairwise_cons (List.pairwise_append.mp hlasting).2.1 ho e rfl
    refine ⟨?_, ?_, hafter, fun timed hwaiting => hc.unawaited timed hwaiting e hmem, ?_⟩
    · have hending := run_ending hrun
      rw [hqueue] at hending
      exact hending.symm
    · have hnone : after.filterMap Outcome.line? = [] := by
        rw [List.filterMap_eq_nil_iff]
        intro o ho
        rw [hafter o ho]
        rfl
      rw [hqueue, List.append_nil, delivered, hreturned, List.filterMap_append,
        List.filterMap_cons_none rfl, hnone, List.append_nil] at hlines
      exact hlines
    · intro timed hlooking
      simp [step, hlooking, hqueue, LineQueue.Silent, LineQueue.get]

/-! One that gives up just as the first line comes, and later finds a token without a line. -/

namespace Hasty

def missed : List Move := [.call true, .look, .put "a", .expire]

def moves : List Move := missed ++ [.signal, .put "b", .call false, .look, .signal, .call true,
  .look, .call true, .look, .wake, .look, .close none, .signal, .wake, .look, .call true, .look]

def early : Handover where
  queue := ⟨["a"], none⟩
  unsent := true
  returned := [.timedOut]

def final : Handover where
  queue := ⟨[], some .endOfInput⟩
  returned := [.timedOut, .found (.ok "a"), .found (.ok "b"), .found (.error .endOfInput),
    .found (.error .endOfInput)]

end Hasty

theorem run_delivers_hasty :
    run {} Hasty.missed = some Hasty.early ∧ run {} Hasty.moves = some Hasty.final ∧
    Hasty.early.queue.lines = [] ++ [Text.bytes "a"] ∧
    [Text.bytes "a", Text.bytes "b"] = Hasty.final.delivered ++ [] ∧
    Hasty.moves.findSome? Move.ending? = some .endOfInput ∧
    ∀ o ∈ [Outcome.found (.error .endOfInput)], o = .found (.error .endOfInput) := by
  have hmissed : run {} Hasty.missed = some Hasty.early := by decide
  have hmoves : run {} Hasty.moves = some Hasty.final := by decide
  obtain ⟨-, htimeout, -⟩ := run_delivers Hasty.missed Hasty.early hmissed
  obtain ⟨hlines, -, hend⟩ := run_delivers Hasty.moves Hasty.final hmoves
  obtain ⟨hcause, -, hafter, -⟩ :=
    hend [.timedOut, .found (.ok "a"), .found (.ok "b")] .endOfInput
      [.found (.error .endOfInput)] rfl
  exact ⟨hmissed, hmoves, htimeout [] Hasty.missed {} rfl rfl rfl, hlines, hcause, hafter⟩

/-- Where one waits although there is a line, or the queue has been closed, a token lies ready or is
about to be sent, and with it the wait ends: what is there is returned. -/
theorem run_wakes (moves : List Move) (h : Handover) (timed : Bool) (hrun : run {} moves = some h)
    (hwaiting : h.taker = .waiting timed)
    (hnews : h.queue.lines ≠ [] ∨ h.queue.ending.isSome) :
    (h.token ∨ h.unsent) ∧
    ∃ rest h', (∀ m ∈ rest, m = .signal ∨ m = .wake ∨ m = .look) ∧ h.run rest = some h' ∧
      h'.returned = h.returned ++ [.found h.queue.get.1] := by
  have hsilent : ¬ h.queue.Silent := by
    rintro ⟨hlines, hopen⟩
    simp [hlines, hopen] at hnews
  have halert := run_alert hrun timed hwaiting hsilent
  refine ⟨halert, ?_⟩
  rcases halert with htoken | hunsent
  · exact ⟨[.wake, .look], _, by simp, run_wake_look hwaiting htoken hsilent, rfl⟩
  · refine ⟨[.signal, .wake, .look], { h with token := false, unsent := false }.answer
      h.queue.get.2 (.found h.queue.get.1), by simp, ?_, rfl⟩
    rw [run_signal hunsent]
    exact run_wake_look (h := { h with token := true, unsent := false }) hwaiting rfl hsilent

/-! One that has been woken by the token of a line that it took before. -/

namespace Stale

def moves : List Move := [.put "a", .signal, .call true, .look, .call true, .look, .wake, .look,
  .put "b"]

def waiting : Handover where
  queue := ⟨["b"], none⟩
  unsent := true
  taker := .waiting true
  returned := [.found (.ok "a")]

end Stale

theorem run_wakes_stale :
    Stale.waiting.taker = .waiting true ∧ Stale.waiting.queue = ⟨["b"], none⟩ ∧
    (Stale.waiting.token ∨ Stale.waiting.unsent) ∧
    ∃ rest h', (∀ m ∈ rest, m = .signal ∨ m = .wake ∨ m = .look) ∧
      Stale.waiting.run rest = some h' ∧
      h'.returned = [.found (.ok "a"), .found (.ok "b")] := by
  obtain ⟨htoken, rest, h', hmoves, hrest, hreturned⟩ :=
    run_wakes Stale.moves Stale.waiting true rfl rfl (.inl (by decide))
  exact ⟨rfl, rfl, htoken, rest, h', hmoves, hrest, hreturned⟩

end Handover

end GuardedRtl.Sim
