import GuardedRtl.Proofs.Latch
import GuardedRtl.Sim.Scripted.Loopback

/-! A backend that its user has closed. It refuses every command and leaves its peer alone, and to
close it again does nothing. A simulator names the closing as the cause. A connection does so only
once some command has failed on it: before that the network is what refuses, and the cause is the
network's own (`Remote.refusal_root`). Main statement: `closed_refuses`. -/

namespace GuardedRtl.Sim

open Text (Bytes)

variable {σ : Type}

namespace Local

variable {t : Terminal σ} {prompt command : Bytes} {l : Local σ}

theorem closed_of_runAll {acts : List (Act σ)} {s : σ} (hclose : acts.any Act.isClose)
    (hrun : (runAll t prompt acts { peer := s }).2 = l) : l.closed := by
  have hclosed := closed_runAll t prompt acts { peer := s }
  rw [hrun, hclose, Bool.or_true] at hclosed
  exact hclosed

end Local

namespace Remote

variable {c : Connection σ} {command : Bytes} {r : Remote (σ × ℕ)}

/-- A connection that has been closed stays so, with the answer that closing it gave. -/
theorem closing_kept {answer : Except Error Unit} (act : Act σ) (h : r.closing = some answer) :
    (act.run (backend c.counted) mapPeer r).2.closing = some answer := by
  cases act with
  | peer change => exact h
  | close =>
    change (close c.counted r).2.closing = some answer
    rw [close_closed h, h]
  | exchange command expected =>
    change (exchange c.counted command expected r).2.closing = some answer
    cases hline : isOneLine command with
    | false => rw [exchange_invalid hline, h]
    | true =>
      cases hfailed : r.failed with
      | some first => rw [exchange_failed hline hfailed, h]
      | none => rw [exchange_closed hline hfailed h, h]

theorem closing_run (act : Act σ) (h : r.closing.isSome ∨ act.isClose) :
    (act.run (backend c.counted) mapPeer r).2.closing.isSome := by
  cases hclosing : r.closing with
  | some answer => exact Option.isSome_of_eq_some (closing_kept act hclosing)
  | none =>
    have hact : act.isClose := by simpa [hclosing] using h
    cases act with
    | close =>
      change (close c.counted r).2.closing.isSome
      rw [close_open hclosing]
      rfl
    | exchange command expected => cases hact
    | peer change => cases hact

theorem closing_runAll (c : Connection σ) {acts : List (Act σ)}
    (h : r.closing.isSome ∨ acts.any Act.isClose) : (runAll c acts r).2.closing.isSome := by
  induction acts generalizing r with
  | nil =>
    change r.closing.isSome
    simpa using h
  | cons act acts ih =>
    rw [List.any_cons, Bool.or_eq_true, ← or_assoc] at h
    exact ih (h.imp_left (closing_run act))

/-- What a closed connection says to a command, where `seen` is what its user has seen so far. -/
def refusal (c : Connection σ) (seen : List (Bytes × Response)) : Error :=
  match firstFailed seen with
  | some first => .outOfSync first
  | none => c.disused

theorem refusal_root (c : Connection σ) (seen : List (Bytes × Response)) :
    (refusal c seen).root = .closed ↔ (firstFailed seen).isSome := by
  unfold refusal
  cases firstFailed seen with
  | some first => exact iff_of_true rfl rfl
  | none => simp [Connection.disused, Error.root]

theorem exchange_refused {acts : List (Act σ)} {s : σ} {seen : List (Bytes × Response)}
    (hclose : acts.any Act.isClose) (hrun : runAll c acts { peer := (s, 0) } = (seen, r))
    (hline : isOneLine command) (expected : ℕ) :
    exchange c.counted command expected r =
      (.failed (refusal c seen), { r with failed := (firstFailed seen).or (some command) }) := by
  have hclosing := closing_runAll c (r := { peer := (s, 0) }) (.inr hclose)
  have hfailed := failed_runAll c acts { peer := (s, 0) }
  rw [hrun] at hclosing hfailed
  rw [Option.none_or] at hfailed
  obtain ⟨answer, hanswer⟩ := Option.isSome_iff_exists.mp hclosing
  unfold refusal
  cases hfirst : firstFailed seen with
  | none => exact exchange_closed hline (hfailed.trans hfirst) hanswer expected
  | some first =>
    have hsame : r.failed = some first := hfailed.trans hfirst
    have hr : { r with failed := some first } = r := by rw [← hsame]
    rw [exchange_failed hline hsame, Option.some_or, hr]

end Remote

/-- Once the user of a backend has closed it, every command fails without lines and nothing changes
at the peer, and to close it again changes nothing. A simulator says that it is closed. The cause
behind what a connection says is that it is closed exactly if some command has failed on it, be it
before or after the closing; it remembers the first such command, and the peer has been told of one
closing only. -/
theorem closed_refuses (acts : List (Act σ)) (hclose : acts.any Act.isClose) (command : Bytes)
    (hline : isOneLine command) (expected : ℕ) :
    (∀ (t : Terminal σ) (prompt : Bytes) (s : σ) (l : Local σ),
      (Local.runAll t prompt acts { peer := s }).2 = l →
      Local.exchange t prompt command expected l = (.failed .closed, l) ∧
      Local.close t l = (.ok (), l)) ∧
    ∀ (c : Connection σ) (s : σ) (seen : List (Bytes × Response)) (r : Remote (σ × ℕ)),
      Remote.runAll c acts { peer := (s, 0) } = (seen, r) →
      Remote.exchange c.counted command expected r =
        (.failed (Remote.refusal c seen),
          { r with failed := (firstFailed seen).or (some command) }) ∧
      ((Remote.refusal c seen).root = .closed ↔ (firstFailed seen).isSome) ∧
      (Remote.close c.counted r).2 = r ∧ r.peer.2 = 1 := by
  refine ⟨?_, ?_⟩
  · intro t prompt s l hrun
    have hclosed := Local.closed_of_runAll hclose hrun
    exact ⟨Local.exchange_closed hline hclosed expected, Local.close_closed hclosed⟩
  · intro c s seen r hrun
    have hclosing := Remote.closing_runAll c (r := { peer := (s, 0) }) (.inr hclose)
    have honce := (Remote.closedOnce_runAll c acts s).1
    rw [hrun] at hclosing honce
    obtain ⟨answer, hanswer⟩ := Option.isSome_iff_exists.mp hclosing
    refine ⟨Remote.exchange_refused hclose hrun hline expected, Remote.refusal_root c seen,
      Remote.close_closed hanswer, ?_⟩
    rw [honce, hanswer]
    rfl

/-! A session that its user ends, and then goes on to use. -/

namespace Retired

def acts : List (Act LineQueue) := [.exchange "poke x 1" 0, .close]

def queue : LineQueue := { lines := ["treadle>> poke x 1", "treadle>> peek x", "peek x 5"] }

def local₁ : Local LineQueue :=
  (Local.runAll LineQueue.terminal "treadle>> " acts { peer := queue }).2

def remote₁ : Remote (LineQueue × ℕ) :=
  (Remote.runAll LineQueue.connection acts { peer := (queue, 0) }).2

/-- The same session one command later. -/
def remote₂ : Remote (LineQueue × ℕ) :=
  (Remote.runAll LineQueue.connection (acts ++ [.exchange "peek x" 1]) { peer := (queue, 0) }).2

end Retired

theorem closed_refuses_retired :
    Local.exchange LineQueue.terminal "treadle>> " "peek x" 1 Retired.local₁ =
      (.failed .closed, Retired.local₁) ∧
    Retired.local₁.peer.lines = ["treadle>> peek x", "peek x 5"] ∧
    Remote.exchange LineQueue.connection.counted "peek x" 1 Retired.remote₁ =
      (.failed LineQueue.connection.disused,
        { Retired.remote₁ with failed := some "peek x" }) ∧
    Remote.exchange LineQueue.connection.counted "peek y" 1 Retired.remote₂ =
      (.failed (.outOfSync "peek x"), { Retired.remote₂ with failed := some "peek x" }) ∧
    Retired.remote₂.peer = (Retired.queue, 1) := by
  obtain ⟨hlocal, hremote⟩ := closed_refuses Retired.acts rfl "peek x" (by decide) 1
  obtain ⟨-, hlater⟩ :=
    closed_refuses (Retired.acts ++ [.exchange "peek x" 1]) rfl "peek y" (by decide) 1
  refine ⟨?_, ?_, ?_, ?_, ?_⟩
  · exact (hlocal LineQueue.terminal "treadle>> " Retired.queue _ rfl).1
  · decide
  · exact (hremote LineQueue.connection Retired.queue _ _ rfl).1
  · exact (hlater LineQueue.connection Retired.queue _ _ rfl).1
  · decide

/-- A connection that is closed and then used says nothing of having been closed, where a simulator
does. -/
theorem refusal_unnamed :
    (Remote.exchange Scripted.Loopback.connection "peek x" 1
      (Remote.close Scripted.Loopback.connection { peer := { bench := {} } }).2).1 =
      .failed Scripted.Loopback.connection.disused ∧
    Scripted.Loopback.connection.disused.message =
      Text.bytes "set deadline: set tcp 127.0.0.1:0: use of closed network connection" ∧
    Scripted.Loopback.connection.disused.root ≠ .closed ∧
    (Local.exchange LineQueue.terminal "treadle>> " "peek x" 1
      (Local.close LineQueue.terminal { peer := {} }).2).1 = .failed .closed := by
  decide +kernel

end GuardedRtl.Sim
