import GuardedRtl.Proofs.Framing
import GuardedRtl.Sim.Remote
import Mathlib.Data.Stream.Init

/-! A client and a server with a network between them. Bytes travel both ways in pieces of any size,
and the server works on its own: any of the moves that are possible can be the next, and any number
of them can happen while the client does something else. A client that reads a line waits for it as
long as a move is possible (`Channel.advance_spec`). -/

namespace GuardedRtl.Sim

open Text (Bytes)

/-- Everything on the other side of a client's connection. -/
structure Link (σ : Type) where
  simulator : σ
  /-- Sent by the client, not yet at the server. -/
  upstream : Bytes := []
  requests : LineReader := {}
  /-- Sent by the server, not yet at the client. -/
  downstream : Bytes := []
  /-- At the client, not yet read. -/
  inbox : Bytes := []
  hungUp : Bool := false

namespace Link

variable {σ : Type}

/-- The next bytes reach the server. -/
def arrive (l : Link σ) (n : ℕ) : Link σ :=
  { l with
    upstream := l.upstream.drop n
    requests := l.requests.feed maxLineSize (l.upstream.take n).toByteArray }

/-- The next bytes reach the client. -/
def deliver (l : Link σ) (n : ℕ) : Link σ :=
  { l with
    downstream := l.downstream.drop n
    inbox := l.inbox ++ l.downstream.take n }

/-- The server answers a request line, or hangs up. -/
def answer (b : Backend σ) (l : Link σ) (line : ByteArray) (rest : List ByteArray) : Link σ :=
  let answered := Server.respondAll b [line.data.toList] {} l.simulator
  { l with
    simulator := answered.2
    requests := { l.requests with lines := rest.toArray }
    downstream := l.downstream ++ answered.1.1.sent
    hungUp := answered.1.2.isSome }

/-- The server takes the next request line. Too long a line ends the session once the lines before
it have been answered. -/
def serve (b : Backend σ) (l : Link σ) : Option (Link σ) :=
  if l.hungUp then none
  else match l.requests.lines.toList with
    | [] => if l.requests.overflowed then some { l with hungUp := true } else none
    | line :: rest => some (l.answer b line rest)

/-- All that can happen next. -/
def moves (b : Backend σ) (l : Link σ) : List (Link σ) :=
  (List.range l.upstream.length).map (fun n => l.arrive (n + 1)) ++ (l.serve b).toList ++
    (List.range l.downstream.length).map (fun n => l.deliver (n + 1))

/-- One of the moves, unless there is none. -/
def pick (b : Backend σ) (l : Link σ) (n : ℕ) : Option (Link σ) :=
  (l.moves b)[n % (l.moves b).length]?

/-- What is still to come, in the order in which it brings about more of the rest. -/
def inFlight (l : Link σ) : ℕ × ℕ × ℕ :=
  (l.upstream.length, l.requests.lines.size + (!l.hungUp).toNat, l.downstream.length)

variable {b : Backend σ} {l l' : Link σ}

theorem mem_moves (h : l' ∈ l.moves b) :
    (∃ n < l.upstream.length, l' = l.arrive (n + 1)) ∨ l.serve b = some l' ∨
    ∃ n < l.downstream.length, l' = l.deliver (n + 1) := by
  simp only [moves, List.mem_append, List.mem_map, List.mem_range, Option.mem_toList] at h
  rcases h with (⟨n, hn, rfl⟩ | h) | ⟨n, hn, rfl⟩
  · exact .inl ⟨n, hn, rfl⟩
  · exact .inr (.inl h)
  · exact .inr (.inr ⟨n, hn, rfl⟩)

/-- Each move is picked by some number, so nothing that can happen is left out. -/
theorem exists_pick_iff : (∃ n, l.pick b n = some l') ↔ l' ∈ l.moves b := by
  constructor
  · rintro ⟨n, hn⟩
    exact List.mem_of_getElem? hn
  · intro h
    obtain ⟨n, hn, rfl⟩ := List.getElem_of_mem h
    exact ⟨n, by simp [pick, Nat.mod_eq_of_lt hn, hn]⟩

theorem pick_eq_none (n : ℕ) : l.pick b n = none ↔ l.moves b = [] := by
  unfold pick
  rw [List.getElem?_eq_none_iff]
  constructor
  · intro hpast
    by_contra hne
    have := Nat.mod_lt n (List.length_pos_iff.mpr hne)
    omega
  · intro hempty
    simp [hempty]

theorem serve_cases (h : l.serve b = some l') :
    l.hungUp = false ∧
    (l.requests.overflowed = true ∧ l' = { l with hungUp := true } ∨
      ∃ line rest, l.requests.lines.toList = line :: rest ∧ l' = l.answer b line rest) := by
  unfold serve at h
  split at h
  · cases h
  next hhung =>
    refine ⟨by simpa using hhung, ?_⟩
    split at h
    · split at h
      next hlong => exact .inl ⟨hlong, (Option.some.inj h).symm⟩
      · cases h
    next line rest hlines => exact .inr ⟨line, rest, hlines, (Option.some.inj h).symm⟩

theorem answer_eq {line : ByteArray} {out : Server.Output} {ending : Option Server.Ending} {s : σ}
    (h : Server.respondAll b [line.data.toList] {} l.simulator = ((out, ending), s))
    (rest : List ByteArray) :
    l.answer b line rest =
      { l with
        simulator := s
        requests := { l.requests with lines := rest.toArray }
        downstream := l.downstream ++ out.sent
        hungUp := ending.isSome } := by
  simp only [answer, h]

theorem inFlight_lt (h : l' ∈ l.moves b) :
    Prod.Lex (· < ·) (Prod.Lex (· < ·) (· < ·)) l'.inFlight l.inFlight := by
  unfold inFlight
  rcases mem_moves h with ⟨n, hn, rfl⟩ | hserve | ⟨n, hn, rfl⟩
  · apply Prod.Lex.left
    simp only [arrive, List.length_drop]
    omega
  · obtain ⟨hopen, ⟨-, rfl⟩ | ⟨line, rest, hlines, rfl⟩⟩ := serve_cases hserve
    · apply Prod.Lex.right
      apply Prod.Lex.left
      simp [hopen]
    · have hsize : l.requests.lines.size = rest.length + 1 := by
        rw [← Array.length_toList, hlines, List.length_cons]
      apply Prod.Lex.right
      apply Prod.Lex.left
      have hflag := Bool.toNat_le (!(l.answer b line rest).hungUp)
      rw [hsize, hopen]
      exact Nat.add_lt_add_of_lt_of_le (Nat.lt_succ_self _) hflag
  · apply Prod.Lex.right
    apply Prod.Lex.right
    simp only [deliver, List.length_drop]
    omega

end Link

/-- A link, with the choices that decide what happens on it next. -/
structure Channel (σ : Type) where
  link : Link σ
  choices : Stream' ℕ

namespace Channel

variable {σ : Type}

/-- What happens next, unless nothing can. -/
def next (b : Backend σ) (c : Channel σ) : Option (Channel σ) :=
  (c.link.pick b c.choices.head).map (⟨·, c.choices.tail⟩)

variable {b : Backend σ} {c c' : Channel σ}

theorem mem_moves_of_next (h : c.next b = some c') : c'.link ∈ c.link.moves b := by
  obtain ⟨l, hl, rfl⟩ := Option.map_eq_some_iff.mp h
  exact Link.exists_pick_iff.mp ⟨_, hl⟩

theorem moves_of_next (h : c.next b = none) : c.link.moves b = [] :=
  (Link.pick_eq_none _).mp (Option.map_eq_none_iff.mp h)

/-- Lets things happen until `stop`, or until nothing can. -/
def advance (b : Backend σ) (stop : Link σ → Bool) (c : Channel σ) : Channel σ :=
  if stop c.link then c
  else match _h : c.next b with
    | none => c
    | some c' => advance b stop c'
termination_by c.link.inFlight
decreasing_by exact Link.inFlight_lt (mem_moves_of_next ‹_›)

/-- Lets everything happen that can. -/
def settle (b : Backend σ) : Channel σ → Channel σ := advance b fun _ => false

/-- Lets up to `n` things happen. -/
def idle (b : Backend σ) : ℕ → Channel σ → Channel σ
  | 0, c => c
  | n + 1, c =>
    match c.next b with
    | none => c
    | some c' => idle b n c'

/-- Lets any number of things happen. -/
def linger (b : Backend σ) (c : Channel σ) : Channel σ :=
  idle b c.choices.head ⟨c.link, c.choices.tail⟩

/-- What each move keeps is kept by any number of moves. -/
theorem linger_induction {P : Link σ → Prop} (hstep : ∀ l, P l → ∀ l' ∈ l.moves b, P l')
    (h : P c.link) : P (c.linger b).link := by
  have hidle (n : ℕ) (c : Channel σ) (h : P c.link) : P (c.idle b n).link := by
    induction n generalizing c with
    | zero => exact h
    | succ n ih =>
      unfold idle
      split
      · exact h
      next c' hnext => exact ih c' (hstep _ h _ (mem_moves_of_next hnext))
  exact hidle _ _ h

/-- What each move keeps is kept during a wait, and a wait ends only for a reason. -/
theorem advance_spec {P : Link σ → Prop} (hstep : ∀ l, P l → ∀ l' ∈ l.moves b, P l')
    (stop : Link σ → Bool) (h : P c.link) :
    P (c.advance b stop).link ∧
    (stop (c.advance b stop).link = true ∨ (c.advance b stop).link.moves b = []) := by
  fun_induction advance b stop c with
  | case1 c hstop => exact ⟨h, .inl hstop⟩
  | case2 c hstop hnext => exact ⟨h, .inr (moves_of_next hnext)⟩
  | case3 c hstop c' hnext ih => exact ih (hstep _ h _ (mem_moves_of_next hnext))

/-- The first line in some bytes, and what follows it. -/
def takeLine (bs : Bytes) : Option (Bytes × Bytes) :=
  match bs.dropWhile (· != lineFeed) with
  | [] => none
  | _ :: rest => some (bs.takeWhile (· != lineFeed), rest)

def write (b : Backend σ) (bs : Bytes) : StateM (Channel σ) (Except Error Unit) := fun c =>
  (.ok (), linger b { c with link := { c.link with upstream := c.link.upstream ++ bs } })

/-- Waits for a line. -/
def await (b : Backend σ) (c : Channel σ) : Channel σ :=
  (c.linger b).advance b fun l => (takeLine l.inbox).isSome

/-- Reads a line. Where none can come any more the server has hung up, or the wait is in vain. -/
def readLine (b : Backend σ) : StateM (Channel σ) (Except Error Bytes) := fun c =>
  let c := c.await b
  match takeLine c.link.inbox with
  | some (line, rest) => (.ok line, { c with link := { c.link with inbox := rest } })
  | none => (.error (if c.link.hungUp then .endOfInput else .timeout), c)

def connection (b : Backend σ) : Connection (Channel σ) where
  address := "127.0.0.1:0"
  write := write b
  readLine := readLine b
  close := pure (.ok ())

theorem await_spec {P : Link σ → Prop} (hstep : ∀ l, P l → ∀ l' ∈ l.moves b, P l') (h : P c.link) :
    P (c.await b).link ∧
    ((takeLine (c.await b).link.inbox).isSome ∨ (c.await b).link.moves b = []) :=
  advance_spec hstep _ (linger_induction hstep h)

theorem readLine_eq {line rest : Bytes}
    (h : takeLine (c.await b).link.inbox = some (line, rest)) :
    readLine b c = (.ok line,
      { c.await b with link := { (c.await b).link with inbox := rest } }) := by
  simp only [readLine, h]

theorem takeLine_append {v : Bytes} (hv : lineFeed ∉ v) (r : Bytes) :
    takeLine (v ++ lineFeed :: r) = some (v, r) := by
  have hall : ∀ b ∈ v, (b != lineFeed) = true := by
    intro b hb
    have : b ≠ lineFeed := fun heq => hv (heq ▸ hb)
    simpa using this
  unfold takeLine
  rw [List.dropWhile_append_of_pos hall, List.takeWhile_append_of_pos hall]
  simp

theorem eq_append_of_takeLine {bs v r : Bytes} (h : takeLine bs = some (v, r)) :
    bs = v ++ lineFeed :: r ∧ lineFeed ∉ v := by
  unfold takeLine at h
  split at h
  · cases h
  next a rest hdrop =>
    obtain ⟨rfl, rfl⟩ := Prod.mk.inj (Option.some.inj h)
    have ha : a = lineFeed := by
      have := List.head?_dropWhile_not (· != lineFeed) bs
      rw [hdrop] at this
      simpa using this
    rw [ha] at hdrop
    constructor
    · rw [← hdrop, List.takeWhile_append_dropWhile]
    · intro hmem
      have := List.all_eq_true.mp List.all_takeWhile _ hmem
      simp at this

end Channel

end GuardedRtl.Sim
