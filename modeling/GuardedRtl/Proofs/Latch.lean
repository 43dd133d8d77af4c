import GuardedRtl.Sim.LineQueue
import GuardedRtl.Sim.Local
import GuardedRtl.Sim.Remote
import Mathlib.Data.List.Basic

/-! A backend that has failed a command is out of step with its peer for good. From then on it
refuses every command in the name of the first that failed, and leaves its peer alone
(`Local.failed_runAll`, `Remote.failed_runAll`). Main statement: `outOfSync_latched`. -/

namespace GuardedRtl.Sim

open Text (Bytes)

variable {σ τ : Type}

/-- What happens to a backend: its user does something with it, or its peer does something. -/
inductive Act (σ : Type) where
  | exchange (command : Bytes) (expected : ℕ)
  | close
  | peer (change : σ → σ)

namespace Act

def isClose : Act σ → Bool
  | .close => true
  | _ => false

/-- Lets something happen to a backend, whose peer `lift` gets at. The user sees the response to a
command. -/
def run (b : Backend τ) (lift : (σ → σ) → τ → τ) : Act σ → StateM τ (List (Bytes × Response))
  | .exchange command expected => do
    let r ← b.exchange command expected
    return [(command, r)]
  | .close => do
    let _ ← b.close
    return []
  | .peer change => do
    modify (lift change)
    return []

def runAll (b : Backend τ) (lift : (σ → σ) → τ → τ) :
    List (Act σ) → StateM τ (List (Bytes × Response))
  | [] => return []
  | act :: rest => do
    let seen ← act.run b lift
    return seen ++ (← runAll b lift rest)

variable {b : Backend τ} {lift : (σ → σ) → τ → τ}

theorem runAll_cons (act : Act σ) (rest : List (Act σ)) (s : τ) :
    runAll b lift (act :: rest) s =
      ((act.run b lift s).1 ++ (runAll b lift rest (act.run b lift s).2).1,
        (runAll b lift rest (act.run b lift s).2).2) := rfl

theorem runAll_append (xs ys : List (Act σ)) (s : τ) :
    runAll b lift (xs ++ ys) s =
      ((runAll b lift xs s).1 ++ (runAll b lift ys (runAll b lift xs s).2).1,
        (runAll b lift ys (runAll b lift xs s).2).2) := by
  induction xs generalizing s with
  | nil => rfl
  | cons act xs ih => rw [List.cons_append, runAll_cons, runAll_cons, ih, List.append_assoc]

/-- What everything that can happen keeps is kept by a run. -/
theorem runAll_induction {P : τ → Prop}
    (hstep : ∀ (act : Act σ) (s : τ), P s → P (act.run b lift s).2)
    {acts : List (Act σ)} {s : τ} (h : P s) : P (runAll b lift acts s).2 := by
  induction acts generalizing s with
  | nil => exact h
  | cons act rest ih =>
    rw [runAll_cons]
    exact ih (hstep act s h)

end Act

/-- The first command that has failed, of those that could be sent. -/
def firstFailed (seen : List (Bytes × Response)) : Option Bytes :=
  (seen.find? fun x => isOneLine x.1 && x.2.error.isSome).map Prod.fst

@[simp] theorem firstFailed_nil : firstFailed [] = none := rfl

theorem firstFailed_append (xs ys : List (Bytes × Response)) :
    firstFailed (xs ++ ys) = (firstFailed xs).or (firstFailed ys) := by
  rw [firstFailed, List.find?_append, Option.map_or]
  rfl

theorem firstFailed_singleton {command : Bytes} (h : isOneLine command) (r : Response) :
    firstFailed [(command, r)] = if r.error.isSome then some command else none := by
  unfold firstFailed
  cases hr : r.error.isSome <;> simp [h, hr]

theorem firstFailed_invalid {command : Bytes} (h : isOneLine command = false) (r : Response) :
    firstFailed [(command, r)] = none := by
  simp [firstFailed, h]

namespace Local

variable {t : Terminal σ} {prompt command : Bytes} {l : Local σ}

theorem exchange_invalid (h : isOneLine command = false) (expected : ℕ) :
    exchange t prompt command expected l = (.failed (.invalidCommand command), l) := by
  simp only [exchange, h]
  rfl

theorem exchange_closed (h : isOneLine command) (hclosed : l.closed) (expected : ℕ) :
    exchange t prompt command expected l = (.failed .closed, l) := by
  obtain ⟨peer, closed, failed⟩ := l
  cases hclosed
  simp only [exchange, h]
  rfl

theorem exchange_failed {first : Bytes} (h : isOneLine command) (hopen : l.closed = false)
    (hfailed : l.failed = some first) (expected : ℕ) :
    exchange t prompt command expected l = (.failed (.outOfSync first), l) := by
  obtain ⟨peer, closed, failed⟩ := l
  cases hopen
  cases hfailed
  simp only [exchange, h]
  rfl

/-- A command is sent only if none has failed, and its own failure is noted. -/
theorem exchange_open (h : isOneLine command) (hopen : l.closed = false) (hfailed : l.failed = none)
    (expected : ℕ) :
    exchange t prompt command expected l =
      ((converse t prompt command expected l.peer).1,
        { l with
          peer := (converse t prompt command expected l.peer).2
          failed := if (converse t prompt command expected l.peer).1.error.isSome then some command
            else none }) := by
  obtain ⟨peer, closed, failed⟩ := l
  cases hopen
  cases hfailed
  obtain ⟨⟨lines, error⟩, peer', hr⟩ :
    ∃ r peer', converse t prompt command expected peer = (r, peer') := ⟨_, _, rfl⟩
  simp only [exchange, h, bind, StateT.bind, get, getThe, MonadStateOf.get, StateT.get, pure,
    onPeer, hr, Bool.not_true, Bool.false_eq_true, if_false]
  cases error <;> rfl

def mapPeer (change : σ → σ) (l : Local σ) : Local σ := { l with peer := change l.peer }

/-- What the user of a simulator sees. -/
def runAll (t : Terminal σ) (prompt : Bytes) :
    List (Act σ) → StateM (Local σ) (List (Bytes × Response)) :=
  Act.runAll (backend t prompt) mapPeer

theorem close_closed (hclosed : l.closed) : close t l = (.ok (), l) := by
  obtain ⟨peer, closed, failed⟩ := l
  cases hclosed
  rfl

theorem close_open (hopen : l.closed = false) :
    (close t l).2 =
      { l with peer := (t.closeInput (t.write "quit\n" l.peer).2).2, closed := true } := by
  obtain ⟨peer, closed, failed⟩ := l
  cases hopen
  obtain ⟨written, peer', hwrite⟩ : ∃ a s, t.write "quit\n" peer = (a, s) := ⟨_, _, rfl⟩
  obtain ⟨answer, peer'', hclose⟩ : ∃ a s, t.closeInput peer' = (a, s) := ⟨_, _, rfl⟩
  have hset (l l' : Local σ) : (set l' : StateM (Local σ) PUnit) l = (⟨⟩, l') := rfl
  simp only [close, bind, StateT.bind, get, getThe, MonadStateOf.get, StateT.get, hset, pure,
    onPeer, Bool.false_eq_true, if_false, hwrite, hclose]
  cases answer <;> rfl

/-- One step closes a simulator only if its user does, and fails it only with a command. -/
theorem run_step (t : Terminal σ) (prompt : Bytes) (act : Act σ) (l : Local σ) :
    (act.run (backend t prompt) mapPeer l).2.closed = (l.closed || act.isClose) ∧
    (act.run (backend t prompt) mapPeer l).2.failed =
      if l.closed then l.failed
      else l.failed.or (firstFailed (act.run (backend t prompt) mapPeer l).1) := by
  cases act with
  | peer change =>
    change l.closed = (l.closed || false) ∧
      l.failed = if l.closed then l.failed else l.failed.or none
    simp
  | close =>
    change (close t l).2.closed = (l.closed || true) ∧
      (close t l).2.failed = if l.closed then l.failed else l.failed.or none
    cases hclosed : l.closed with
    | true => simp [close_closed hclosed, hclosed]
    | false => simp [close_open hclosed]
  | exchange command expected =>
    change (exchange t prompt command expected l).2.closed = (l.closed || false) ∧
      (exchange t prompt command expected l).2.failed =
        if l.closed then l.failed
        else l.failed.or (firstFailed [(command, (exchange t prompt command expected l).1)])
    rw [Bool.or_false]
    cases hline : isOneLine command with
    | false => simp [exchange_invalid hline, firstFailed_invalid hline]
    | true =>
      rw [firstFailed_singleton hline]
      cases hclosed : l.closed with
      | true => simp [exchange_closed hline hclosed, hclosed]
      | false =>
        cases hfailed : l.failed with
        | some first => simp [exchange_failed hline hclosed hfailed, hclosed, hfailed]
        | none => simp [exchange_open hline hclosed hfailed, hclosed]

theorem closed_runAll (t : Terminal σ) (prompt : Bytes) (acts : List (Act σ)) (l : Local σ) :
    (runAll t prompt acts l).2.closed = (l.closed || acts.any Act.isClose) := by
  induction acts generalizing l with
  | nil => exact (Bool.or_false l.closed).symm
  | cons act acts ih =>
    have hrest := ih (act.run (backend t prompt) mapPeer l).2
    rw [(run_step t prompt act l).1, Bool.or_assoc] at hrest
    exact hrest

/-- A simulator that nobody closes remembers the first command that has failed. -/
theorem failed_runAll (t : Terminal σ) (prompt : Bytes) {acts : List (Act σ)}
    (hacts : acts.any Act.isClose = false) (hopen : l.closed = false) :
    (runAll t prompt acts l).2.failed = l.failed.or (firstFailed (runAll t prompt acts l).1) := by
  induction acts generalizing l with
  | nil => exact Option.or_none.symm
  | cons act acts ih =>
    rw [List.any_cons, Bool.or_eq_false_iff] at hacts
    obtain ⟨hclosed, hfailed⟩ := run_step t prompt act l
    rw [hopen, hacts.1, Bool.or_false] at hclosed
    rw [hopen, if_neg Bool.false_ne_true] at hfailed
    have hrest := ih hacts.2 hclosed
    rw [hfailed, Option.or_assoc, ← firstFailed_append] at hrest
    exact hrest

/-- It never forgets it. -/
theorem failed_kept (t : Terminal σ) (prompt : Bytes) {first : Bytes} (acts : List (Act σ))
    (h : l.failed = some first) :
    (runAll t prompt acts l).2.failed = some first := by
  apply Act.runAll_induction (P := fun l : Local σ => l.failed = some first) _ h
  intro act l hl
  rw [(run_step t prompt act l).2, hl]
  simp

theorem exchange_latched {before after : List (Act σ)} {first : Bytes} {s : σ}
    (hbefore : before.any Act.isClose = false)
    (hfirst : firstFailed (runAll t prompt before { peer := s }).1 = some first)
    (hrun : (runAll t prompt (before ++ after) { peer := s }).2 = l) (hline : isOneLine command)
    (expected : ℕ) :
    exchange t prompt command expected l =
      (.failed (if after.any Act.isClose then .closed else .outOfSync first), l) := by
  have hlatched := failed_runAll t prompt (l := { peer := s }) hbefore rfl
  rw [hfirst, Option.none_or] at hlatched
  have hfailed := failed_kept t prompt after hlatched
  have hclosed := closed_runAll t prompt (before ++ after) { peer := s }
  rw [List.any_append, hbefore, Bool.false_or, Bool.false_or, hrun] at hclosed
  rw [runAll, Act.runAll_append] at hrun
  rw [runAll, hrun] at hfailed
  cases hafter : after.any Act.isClose with
  | true =>
    rw [hafter] at hclosed
    exact exchange_closed hline hclosed expected
  | false =>
    rw [hafter] at hclosed
    exact exchange_failed hline hclosed hfailed expected

end Local

namespace Remote

variable {c : Connection σ} {command : Bytes} {r : Remote σ}

theorem exchange_invalid (h : isOneLine command = false) (expected : ℕ) :
    exchange c command expected r = (.failed (.invalidCommand command), r) := by
  simp only [exchange, h]
  rfl

theorem exchange_failed {first : Bytes} (h : isOneLine command) (hfailed : r.failed = some first)
    (expected : ℕ) : exchange c command expected r = (.failed (.outOfSync first), r) := by
  obtain ⟨peer, failed, closing⟩ := r
  cases hfailed
  simp only [exchange, h]
  rfl

theorem exchange_closed {answer : Except Error Unit} (h : isOneLine command)
    (hfailed : r.failed = none) (hclosing : r.closing = some answer) (expected : ℕ) :
    exchange c command expected r =
      (.failed c.disused, { r with failed := some command }) := by
  obtain ⟨peer, failed, closing⟩ := r
  cases hfailed
  cases hclosing
  simp only [exchange, h]
  rfl

/-- A command is sent only if none has failed, and its own failure closes the connection. -/
theorem exchange_open (h : isOneLine command) (hfailed : r.failed = none)
    (hclosing : r.closing = none) (expected : ℕ) :
    exchange c command expected r =
      ((converse c command expected r.peer).1,
        if (converse c command expected r.peer).1.error.isSome then
          { peer := (c.close (converse c command expected r.peer).2).2
            failed := some command
            closing := some (c.close (converse c command expected r.peer).2).1 }
        else { r with peer := (converse c command expected r.peer).2 }) := by
  obtain ⟨peer, failed, closing⟩ := r
  cases hfailed
  cases hclosing
  obtain ⟨⟨lines, error⟩, peer', hr⟩ :
    ∃ a peer', converse c command expected peer = (a, peer') := ⟨_, _, rfl⟩
  simp only [exchange, h, bind, StateT.bind, get, getThe, MonadStateOf.get, StateT.get, pure,
    onPeer, hr, Bool.not_true, Bool.false_eq_true, if_false, Option.isSome_none]
  cases error <;> rfl

/-- An error of a command that was sent is not forgotten. -/
theorem error_eq_none {r' : Remote σ} {a : Response} {expected : ℕ} (h : isOneLine command)
    (hexchange : exchange c command expected r = (a, r')) (hfailed : r'.failed = none) :
    a.error = none := by
  cases hfirst : r.failed with
  | some first =>
    rw [exchange_failed h hfirst] at hexchange
    obtain ⟨rfl, rfl⟩ := Prod.mk.inj hexchange
    simp [hfirst] at hfailed
  | none =>
    cases hclosing : r.closing with
    | some answer =>
      rw [exchange_closed h hfirst hclosing] at hexchange
      obtain ⟨rfl, rfl⟩ := Prod.mk.inj hexchange
      cases hfailed
    | none =>
      rw [exchange_open h hfirst hclosing] at hexchange
      obtain ⟨rfl, rfl⟩ := Prod.mk.inj hexchange
      split_ifs at hfailed with herror
      simpa using herror

theorem close_closed {answer : Except Error Unit} (h : r.closing = some answer) :
    (close c r).2 = r := by
  obtain ⟨peer, failed, closing⟩ := r
  cases h
  cases answer <;> rfl

theorem close_open (h : r.closing = none) :
    (close c r).2 = { r with peer := (c.close r.peer).2, closing := some (c.close r.peer).1 } := by
  obtain ⟨peer, failed, closing⟩ := r
  cases h
  obtain ⟨answer, peer', hclose⟩ : ∃ a s, c.close peer = (a, s) := ⟨_, _, rfl⟩
  simp only [close, disconnect, bind, StateT.bind, get, getThe, MonadStateOf.get, StateT.get, pure,
    onPeer, hclose]
  cases answer <;> rfl

/-- What writing and reading keep is kept by a conversation. -/
theorem converse_keeps {P : σ → Prop} (hwrite : ∀ bs s, P s → P (c.write bs s).2)
    (hread : ∀ s, P s → P (c.readLine s).2) (command : Bytes) (expected : ℕ) {s : σ} (h : P s) :
    P (converse c command expected s).2 := by
  have hlines (missing : ℕ) (got : List Bytes) (s : σ) (h : P s) :
      P (readLines c command expected missing got s).2 := by
    induction missing generalizing got s with
    | zero => exact h
    | succ missing ih =>
      have hnext := hread s h
      obtain ⟨answer, s', hanswer⟩ : ∃ a s', c.readLine s = (a, s') := ⟨_, _, rfl⟩
      rw [hanswer] at hnext
      simp only [readLines, bind, StateT.bind, hanswer]
      cases answer with
      | ok line => exact ih _ _ hnext
      | error e => cases e <;> exact hnext
  have hsent := hwrite (Request.text ⟨command, expected⟩ ++ [lineFeed]) s h
  obtain ⟨answer, s', hanswer⟩ :
    ∃ a s', c.write (Request.text ⟨command, expected⟩ ++ [lineFeed]) s = (a, s') := ⟨_, _, rfl⟩
  rw [hanswer] at hsent
  simp only [converse, bind, StateT.bind, hanswer]
  cases answer with
  | error e => exact hsent
  | ok _ => exact hlines _ _ _ hsent

end Remote

/-- The same connection, with a count of how often it has been closed. -/
def Connection.counted (c : Connection σ) : Connection (σ × ℕ) where
  address := c.address
  write bs := fun (s, n) =>
    let (a, s) := c.write bs s
    (a, s, n)
  readLine := fun (s, n) =>
    let (a, s) := c.readLine s
    (a, s, n)
  close := fun (s, n) =>
    let (a, s) := c.close s
    (a, s, n + 1)

namespace Remote

variable {c : Connection σ} {r : Remote (σ × ℕ)}

def mapPeer (change : σ → σ) (r : Remote (σ × ℕ)) : Remote (σ × ℕ) :=
  { r with peer := (change r.peer.1, r.peer.2) }

/-- What the user of a connection sees. -/
def runAll (c : Connection σ) :
    List (Act σ) → StateM (Remote (σ × ℕ)) (List (Bytes × Response)) :=
  Act.runAll (backend c.counted) mapPeer

theorem converse_count (c : Connection σ) (command : Bytes) (expected : ℕ) (s : σ × ℕ) :
    (converse c.counted command expected s).2.2 = s.2 := by
  refine converse_keeps (P := fun s' : σ × ℕ => s'.2 = s.2) ?_ ?_ command expected rfl
  · intro bs s' h
    exact h
  · intro s' h
    exact h

/-- One step fails a connection only with a command. -/
theorem run_failed (act : Act σ) (r : Remote (σ × ℕ)) :
    (act.run (backend c.counted) mapPeer r).2.failed =
      r.failed.or (firstFailed (act.run (backend c.counted) mapPeer r).1) := by
  cases act with
  | peer change => exact Option.or_none.symm
  | close =>
    change (close c.counted r).2.failed = r.failed.or none
    cases hclosing : r.closing with
    | some answer => simp [close_closed hclosing]
    | none => simp [close_open hclosing]
  | exchange command expected =>
    change (exchange c.counted command expected r).2.failed =
      r.failed.or (firstFailed [(command, (exchange c.counted command expected r).1)])
    cases hline : isOneLine command with
    | false => simp [exchange_invalid hline, firstFailed_invalid hline]
    | true =>
      rw [firstFailed_singleton hline]
      cases hfailed : r.failed with
      | some first => simp [exchange_failed hline hfailed, hfailed]
      | none =>
        cases hclosing : r.closing with
        | some answer => simp [exchange_closed hline hfailed hclosing, Response.failed]
        | none =>
          rw [exchange_open hline hfailed hclosing]
          split_ifs <;> simp [hfailed]

/-- The connection has been closed once if at all, and it has if a command failed. -/
def ClosedOnce (r : Remote (σ × ℕ)) : Prop :=
  r.peer.2 = r.closing.isSome.toNat ∧ (r.failed.isSome → r.closing.isSome)

theorem ClosedOnce.run (act : Act σ) (h : r.ClosedOnce) :
    (act.run (backend c.counted) mapPeer r).2.ClosedOnce := by
  obtain ⟨hcount, hfailure⟩ := h
  cases act with
  | peer change => exact ⟨hcount, hfailure⟩
  | close =>
    change (close c.counted r).2.ClosedOnce
    cases hclosing : r.closing with
    | some answer =>
      rw [close_closed hclosing]
      exact ⟨hcount, hfailure⟩
    | none =>
      rw [hclosing] at hcount
      rw [close_open hclosing]
      exact ⟨congrArg (· + 1) hcount, fun _ => rfl⟩
  | exchange command expected =>
    change (exchange c.counted command expected r).2.ClosedOnce
    cases hline : isOneLine command with
    | false =>
      rw [exchange_invalid hline]
      exact ⟨hcount, hfailure⟩
    | true =>
      cases hfailed : r.failed with
      | some first =>
        rw [exchange_failed hline hfailed]
        exact ⟨hcount, hfailure⟩
      | none =>
        cases hclosing : r.closing with
        | some answer =>
          rw [exchange_closed hline hfailed hclosing]
          exact ⟨hcount, fun _ => by simp [hclosing]⟩
        | none =>
          rw [hclosing] at hcount
          have hkept := (converse_count c command expected r.peer).trans hcount
          rw [exchange_open hline hfailed hclosing]
          split_ifs with herror
          · exact ⟨congrArg (· + 1) hkept, fun _ => rfl⟩
          · refine ⟨?_, ?_⟩
            · rw [hclosing]
              exact hkept
            · simp [hfailed]

theorem failed_runAll (c : Connection σ) (acts : List (Act σ)) (r : Remote (σ × ℕ)) :
    (runAll c acts r).2.failed = r.failed.or (firstFailed (runAll c acts r).1) := by
  induction acts generalizing r with
  | nil => exact Option.or_none.symm
  | cons act acts ih =>
    have hrest := ih (act.run (backend c.counted) mapPeer r).2
    rw [run_failed, Option.or_assoc, ← firstFailed_append] at hrest
    exact hrest

theorem closedOnce_runAll (c : Connection σ) (acts : List (Act σ)) (s : σ) :
    (runAll c acts { peer := (s, 0) }).2.ClosedOnce := by
  refine Act.runAll_induction (fun act r h => h.run act) ⟨rfl, ?_⟩
  intro h
  cases h

theorem exchange_latched {before after : List (Act σ)} {first command : Bytes} {s : σ}
    (hfirst : firstFailed (runAll c before { peer := (s, 0) }).1 = some first)
    (hrun : (runAll c (before ++ after) { peer := (s, 0) }).2 = r) (hline : isOneLine command)
    (expected : ℕ) :
    exchange c.counted command expected r = (.failed (.outOfSync first), r) ∧ r.peer.2 = 1 := by
  have hfailed := failed_runAll c (before ++ after) { peer := (s, 0) }
  have honce := closedOnce_runAll c (before ++ after) s
  rw [hrun] at hfailed honce
  rw [runAll] at hfirst hfailed
  rw [Act.runAll_append, firstFailed_append, hfirst, Option.some_or, Option.none_or] at hfailed
  have hclosing : r.closing.isSome := honce.2 (by simp [hfailed])
  refine ⟨exchange_failed hline hfailed expected, ?_⟩
  rw [honce.1, hclosing]
  rfl

end Remote

/-- Once a command has failed on a backend that its user has not closed, every later one is refused
in its name, whatever the peer does: no lines, and nothing changes on either side. A simulator that
is closed then says only that; a connection has been closed exactly once, however often its user
closes it. A command of more than one line is refused at any time, and changes nothing. -/
theorem outOfSync_latched (before after : List (Act σ)) (first : Bytes)
    (hbefore : before.any Act.isClose = false) :
    (∀ (t : Terminal σ) (prompt : Bytes) (s : σ),
      firstFailed (Local.runAll t prompt before { peer := s }).1 = some first →
      ∀ (command : Bytes) (expected : ℕ) (l : Local σ), isOneLine command →
        (Local.runAll t prompt (before ++ after) { peer := s }).2 = l →
        Local.exchange t prompt command expected l =
          (.failed (if after.any Act.isClose then .closed else .outOfSync first), l)) ∧
    (∀ (c : Connection σ) (s : σ),
      firstFailed (Remote.runAll c before { peer := (s, 0) }).1 = some first →
      ∀ (command : Bytes) (expected : ℕ) (r : Remote (σ × ℕ)), isOneLine command →
        (Remote.runAll c (before ++ after) { peer := (s, 0) }).2 = r →
        Remote.exchange c.counted command expected r = (.failed (.outOfSync first), r) ∧
        r.peer.2 = 1) ∧
    (Error.outOfSync first).root = .closed ∧
    (Error.outOfSync first).message =
      "sim: out of sync after " ++ first ++ ": sim: backend closed" ∧
    ∀ (command : Bytes) (expected : ℕ), isOneLine command = false →
      (∀ (t : Terminal σ) (prompt : Bytes) (l : Local σ),
        Local.exchange t prompt command expected l = (.failed (.invalidCommand command), l)) ∧
      ∀ (c : Connection σ) (r : Remote σ),
        Remote.exchange c command expected r = (.failed (.invalidCommand command), r) := by
  refine ⟨?_, ?_, rfl, ?_, ?_⟩
  · intro t prompt s hfirst command expected l hline hrun
    exact Local.exchange_latched hbefore hfirst hrun hline expected
  · intro c s hfirst command expected r hline hrun
    exact Remote.exchange_latched hfirst hrun hline expected
  · have hclosed : ": sim: backend closed" = Text.bytes ": " ++ Text.bytes closedText := by decide
    rw [hclosed, ← List.append_assoc]
    rfl
  · intro command expected hline
    exact ⟨fun t prompt l => Local.exchange_invalid hline expected,
      fun c r => Remote.exchange_invalid hline expected⟩

/-! A command that times out, and its response that arrives too late. -/

namespace LineQueue

/-- A simulator that takes whatever is written to it. -/
def terminal : Terminal LineQueue where
  write _ := pure (.ok ())
  readLine := get
  closeInput := pure (.ok ())

def connection : Connection LineQueue where
  address := "127.0.0.1:0"
  write _ := pure (.ok ())
  readLine := get
  close := pure (.ok ())

end LineQueue

namespace Late

def queue : LineQueue := { lines := ["treadle>> poke x 1"] }

def before : List (Act LineQueue) :=
  [.exchange "poke x 1" 0, .exchange "peek x\nquit" 1, .exchange "peek x" 1]

def response : Act LineQueue := .peer (·.putAll ["treadle>> peek x", "peek x 5"])

def local₁ : Local LineQueue :=
  (Local.runAll LineQueue.terminal "treadle>> " (before ++ [response]) { peer := queue }).2

def remote₁ : Remote (LineQueue × ℕ) :=
  (Remote.runAll LineQueue.connection (before ++ [response, .close, .exchange "step 1" 1, .close])
    { peer := ({}, 0) }).2

end Late

theorem outOfSync_latched_late :
    Local.exchange LineQueue.terminal "treadle>> " "peek y" 1 Late.local₁ =
      (.failed (.outOfSync "peek x"), Late.local₁) ∧
    Late.local₁.peer.lines = ["treadle>> peek x", "peek x 5"] ∧
    Remote.exchange LineQueue.connection.counted "peek y" 1 Late.remote₁ =
      (.failed (.outOfSync "peek x"), Late.remote₁) ∧
    Late.remote₁.peer = (⟨["treadle>> peek x", "peek x 5"], none⟩, 1) := by
  obtain ⟨hlocal, -⟩ := outOfSync_latched Late.before [Late.response] "peek x" rfl
  obtain ⟨-, hremote, -⟩ := outOfSync_latched Late.before
    [Late.response, .close, .exchange "step 1" 1, .close] "peek x" rfl
  refine ⟨?_, ?_, ?_, ?_⟩
  · exact hlocal LineQueue.terminal "treadle>> " Late.queue (by decide) "peek y" 1 _ (by decide) rfl
  · decide
  · exact (hremote LineQueue.connection {} (by decide) "peek y" 1 _ (by decide) rfl).1
  · decide

end GuardedRtl.Sim
