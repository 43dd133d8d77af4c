import GuardedRtl.Proofs.Handler
import Mathlib.Logic.Function.Basic

/-! All sessions of a server together. Any of them can take the next step, so a run is a schedule:
who takes a step, step by step. What the simulator is asked is kept in a log that says for whom, and
each session has come to what its part of the log says (`Hall.Account.turn`). A session can be put
in the place of another that makes the same requests, and the others do not notice
(`Hall.Alike.turn`). Main statement: `Hall.served_isolated`. -/

namespace GuardedRtl.Sim

variable {ι σ : Type}

namespace Backend

variable {b : Backend σ} {qs : List Request} {rs : List Response} {q : Request} {r : Response}
  {s t t' : σ}

theorem exchangeAll_snoc (hall : b.exchangeAll qs s = (rs, t))
    (hlast : b.exchange q.command q.count t = (r, t')) :
    b.exchangeAll (qs ++ [q]) s = (rs ++ [r], t') := by
  induction qs generalizing s rs with
  | nil =>
    obtain ⟨rfl, rfl⟩ := Prod.mk.inj hall
    exact exchangeAll_cons hlast []
  | cons first qs ih =>
    obtain ⟨a, u, hfirst⟩ : ∃ a u, b.exchange first.command first.count s = (a, u) := ⟨_, _, rfl⟩
    rw [exchangeAll_cons hfirst] at hall
    obtain ⟨rfl, hrest⟩ := Prod.mk.inj hall
    rw [List.cons_append, exchangeAll_cons hfirst, ih (Prod.ext rfl hrest)]
    rfl

end Backend

namespace Server

/-- The part of a log that belongs to one session. -/
def own [DecidableEq ι] (i : ι) (log : List (ι × Request × Response)) : List (Request × Response) :=
  (log.filter (·.1 = i)).map Prod.snd

/-- A server at work: the simulator, and all the sessions. -/
structure Hall (ι σ : Type) where
  simulator : σ
  handlers : ι → Handler

namespace Hall

def start (s : σ) (clients : ι → Client) : Hall ι σ := ⟨s, fun i => .start (clients i)⟩

variable [DecidableEq ι]

/-- The hall when one session has got somewhere. -/
def place (hall : Hall ι σ) (i : ι) (h : Handler) (s : σ) : Hall ι σ :=
  ⟨s, Function.update hall.handlers i h⟩

/-- One session takes a step. -/
def turn (b : Backend σ) (hall : Hall ι σ) (i : ι) : Hall ι σ :=
  let (h, s) := (hall.handlers i).turn b hall.simulator
  hall.place i h s

def run (b : Backend σ) (hall : Hall ι σ) (schedule : List ι) : Hall ι σ :=
  schedule.foldl (turn b) hall

/-- No connection breaks. -/
def Unbroken (hall : Hall ι σ) : Prop := ∀ i, (hall.handlers i).out.limit = none

variable {b : Backend σ} {hall hall' : Hall ι σ} {i j : ι} {h : Handler} {s : σ}

@[simp] theorem simulator_place : (hall.place i h s).simulator = s := rfl

@[simp] theorem handlers_place_self : (hall.place i h s).handlers i = h := Function.update_self ..

theorem handlers_place_of_ne (hj : j ≠ i) : (hall.place i h s).handlers j = hall.handlers j :=
  Function.update_of_ne hj ..

@[simp] theorem place_place (h' : Handler) (s' : σ) :
    (hall.place i h s).place i h' s' = hall.place i h' s' := by
  simp [place]

theorem place_eq_self (hh : hall.handlers i = h) (hs : hall.simulator = s) :
    hall.place i h s = hall := by
  subst hh hs
  simp [place]

theorem run_cons (i : ι) (schedule : List ι) :
    hall.run b (i :: schedule) = (hall.turn b i).run b schedule := rfl

theorem run_append (schedule schedule' : List ι) :
    hall.run b (schedule ++ schedule') = (hall.run b schedule).run b schedule' :=
  List.foldl_append ..

theorem handlers_run_of_notMem {schedule : List ι} (hi : i ∉ schedule) :
    (hall.run b schedule).handlers i = hall.handlers i := by
  induction schedule generalizing hall with
  | nil => rfl
  | cons j schedule ih =>
    rw [run_cons, ih (List.not_mem_of_not_mem_cons hi)]
    exact handlers_place_of_ne (List.ne_of_not_mem_cons hi)

/-- A turn is a step of one session. -/
theorem Unbroken.step (hunbroken : hall.Unbroken) (b : Backend σ) (i : ι) :
    ∃ h s, Handler.Step b (hall.handlers i) hall.simulator h s ∧
      hall.turn b i = hall.place i h s := by
  obtain ⟨h, s, hturn⟩ : ∃ h s, (hall.handlers i).turn b hall.simulator = (h, s) := ⟨_, _, rfl⟩
  refine ⟨h, s, Handler.step_turn (hunbroken i) hturn, ?_⟩
  simp only [turn, hturn]

theorem Unbroken.turn (hunbroken : hall.Unbroken) (b : Backend σ) (i : ι) :
    (hall.turn b i).Unbroken := by
  obtain ⟨h, s, hstep, hturn⟩ := hunbroken.step b i
  intro j
  rw [hturn]
  by_cases hj : j = i
  · subst hj
    rw [handlers_place_self]
    exact hstep.limit (hunbroken j)
  · rw [handlers_place_of_ne hj]
    exact hunbroken j

theorem Unbroken.run (hunbroken : hall.Unbroken) (b : Backend σ) (schedule : List ι) :
    (hall.run b schedule).Unbroken := by
  induction schedule generalizing hall with
  | nil => exact hunbroken
  | cons i schedule ih => exact ih (hunbroken.turn b i)

/-- Each turn brings a session closer to its end, whatever happens between. -/
theorem due_run (hunbroken : hall.Unbroken) (schedule : List ι) (i : ι) :
    ((hall.run b schedule).handlers i).due ≤ (hall.handlers i).due - schedule.count i := by
  induction schedule generalizing hall with
  | nil => exact le_rfl
  | cons j schedule ih =>
    have hrest := ih (hunbroken.turn b j)
    rw [run_cons]
    obtain ⟨h, s, hstep, hturn⟩ := hunbroken.step b j
    rw [hturn] at hrest ⊢
    by_cases hj : j = i
    · subst hj
      have hless := hstep.due_le
      rw [handlers_place_self] at hrest
      rw [List.count_cons_self]
      omega
    · rwa [handlers_place_of_ne (Ne.symm hj), ← List.count_cons_of_ne hj] at hrest

/-- A session that has all its turns at once does what is left to do. -/
theorem run_replicate (hunbroken : hall.Unbroken) (i : ι) {n : ℕ}
    (hn : (hall.handlers i).due ≤ n) :
    ∃ h ending s, hall.run b (List.replicate n i) = hall.place i h s ∧ h.ending = some ending ∧
      (hall.handlers i).complete b hall.simulator = ((h.out, ending), s) := by
  induction n generalizing hall with
  | zero =>
    have hover := Handler.due_eq_zero.mp (Nat.le_zero.mp hn)
    obtain ⟨ending, hending⟩ := Option.ne_none_iff_exists'.mp hover
    exact ⟨hall.handlers i, ending, hall.simulator, (place_eq_self rfl rfl).symm, hending,
      Handler.complete_ended hending⟩
  | succ n ih =>
    obtain ⟨h, s, hstep, hturn⟩ := hunbroken.step b i
    have hfewer : h.due ≤ n := by
      have := hstep.due_le
      omega
    have hrest := ih (hunbroken.turn b i) (by simpa [hturn] using hfewer)
    rw [List.replicate_succ, run_cons]
    simp only [hturn, place_place, handlers_place_self, simulator_place] at hrest ⊢
    rwa [← hstep.complete_eq (hunbroken i)]

/-- A session that has all its turns at once is served from beginning to end. -/
theorem run_session {client : Client} {n : ℕ} (hunbroken : hall.Unbroken)
    (hstart : hall.handlers i = .start client) (hlimit : client.limit = none)
    (hn : client.turns ≤ n) :
    ∃ h ending t, hall.run b (List.replicate n i) = hall.place i h t ∧ h.ending = some ending ∧
      session b client hall.simulator = ((h.out, ending), t) := by
  have halone := run_replicate (b := b) hunbroken i (n := n) (by rwa [hstart, Handler.due_start])
  rwa [hstart, Handler.complete_start hlimit] at halone

/-- The log says all that the simulator was asked and what it answered, and each session has come to
what its part of the log says. -/
structure Account (b : Backend σ) (s : σ) (clients : ι → Client)
    (hall : Hall ι (σ × List (Text.Bytes × ℕ))) (log : List (ι × Request × Response)) : Prop where
  asked : hall.simulator.2 = log.map (·.2.1.asked)
  answered : b.exchangeAll (log.map (·.2.1)) s = (log.map (·.2.2), hall.simulator.1)
  standing : ∀ i, (hall.handlers i).Standing (clients i) (own i log)

variable {clients : ι → Client} {log : List (ι × Request × Response)}

theorem own_snoc_self (i : ι) (q : Request) (r : Response) :
    own i (log ++ [(i, q, r)]) = own i log ++ [(q, r)] := by
  simp [own]

theorem own_snoc_of_ne (hj : j ≠ i) (q : Request) (r : Response) :
    own j (log ++ [(i, q, r)]) = own j log := by
  simp [own, Ne.symm hj]

theorem Account.start (b : Backend σ) (s : σ) (clients : ι → Client) :
    Account b s clients (Hall.start (s, []) clients) [] :=
  ⟨rfl, rfl, fun i => Handler.standing_start (clients i)⟩

theorem Account.turn {hall : Hall ι (σ × List (Text.Bytes × ℕ))}
    (haccount : Account b s clients hall log) (hunbroken : hall.Unbroken) (i : ι) :
    ∃ log', Account b s clients (hall.turn b.recorded i) log' := by
  obtain ⟨h, t, hstep, hturn⟩ := hunbroken.step b.recorded i
  rw [hturn]
  rcases (haccount.standing i).step hstep with ⟨rfl, hstanding⟩ | ⟨q, r, hexchange, hstanding⟩
  · refine ⟨log, haccount.asked, haccount.answered, fun j => ?_⟩
    by_cases hj : j = i
    · subst hj
      rwa [handlers_place_self]
    · rw [handlers_place_of_ne hj]
      exact haccount.standing j
  · obtain ⟨a, u, hdirect⟩ : ∃ a u, b.exchange q.command q.count hall.simulator.1 = (a, u) :=
      ⟨_, _, rfl⟩
    have hrecorded := Backend.recorded_exchange hdirect hall.simulator.2
    obtain ⟨rfl, rfl⟩ := Prod.mk.inj (hrecorded.symm.trans hexchange)
    refine ⟨log ++ [(i, q, a)], ?_, ?_, fun j => ?_⟩
    · simp [haccount.asked, Request.asked]
    · simpa using Backend.exchangeAll_snoc haccount.answered hdirect
    · by_cases hj : j = i
      · subst hj
        rwa [handlers_place_self, own_snoc_self]
      · rw [handlers_place_of_ne hj, own_snoc_of_ne hj]
        exact haccount.standing j

theorem Account.run {hall : Hall ι (σ × List (Text.Bytes × ℕ))}
    (haccount : Account b s clients hall log) (hunbroken : hall.Unbroken) (schedule : List ι) :
    ∃ log', Account b s clients (hall.run b.recorded schedule) log' := by
  induction schedule generalizing hall log with
  | nil => exact ⟨log, haccount⟩
  | cons i schedule ih =>
    obtain ⟨log', haccount'⟩ := haccount.turn hunbroken i
    exact ih haccount' (hunbroken.turn b.recorded i)

/-- A session whose next request is `q` brings it to the simulator if it gets turns. -/
theorem exists_run_ask {q : Request} {rest : List Request} {r : Response} {t : σ}
    (hunbroken : hall.Unbroken) (hahead : (hall.handlers i).ahead = q :: rest)
    (hexchange : b.exchange q.command q.count hall.simulator = (r, t)) :
    ∃ n h, hall.run b (List.replicate n i) = hall.place i h t ∧
      h.ahead = if q.MetBy r then rest else [] := by
  induction hdue : (hall.handlers i).due using Nat.strong_induction_on generalizing hall with
  | _ due ih =>
    subst hdue
    obtain ⟨h, s, hstep, hturn⟩ := hunbroken.step b i
    rcases hstep.ahead_eq with ⟨rfl, hsame⟩ | ⟨q', rest', r', hahead', hexchange', hafter⟩
    · -- the turn went to reading or writing
      have hless := hstep.due_lt (Handler.ending_of_ahead hahead)
      obtain ⟨n, h', hrun, hafter⟩ := ih h.due hless (hunbroken.turn b i)
        (by rw [hturn, handlers_place_self, hsame, hahead]) (by rw [hturn]; exact hexchange)
        (by rw [hturn, handlers_place_self])
      refine ⟨n + 1, h', ?_, hafter⟩
      rw [List.replicate_succ, run_cons, hrun, hturn, place_place]
    · rw [hahead] at hahead'
      obtain ⟨rfl, rfl⟩ := List.cons.inj hahead'
      obtain ⟨rfl, rfl⟩ := Prod.mk.inj (hexchange.symm.trans hexchange')
      exact ⟨1, h, hturn, hafter⟩

/-- Two halls that differ in one session only, which makes the same requests in both. -/
structure Alike (i : ι) (hall hall' : Hall ι σ) : Prop where
  simulator : hall'.simulator = hall.simulator
  others : ∀ j ≠ i, hall'.handlers j = hall.handlers j
  ahead : (hall'.handlers i).ahead = (hall.handlers i).ahead

theorem Alike.turn (halike : Alike i hall hall') (hunbroken : hall.Unbroken)
    (hunbroken' : hall'.Unbroken) (b : Backend σ) (j : ι) :
    ∃ schedule, Alike i (hall.turn b j) (hall'.run b schedule) := by
  by_cases hj : j = i
  · subst hj
    obtain ⟨h, s, hstep, hturn⟩ := hunbroken.step b j
    rw [hturn]
    rcases hstep.ahead_eq with ⟨rfl, hsame⟩ | ⟨q, rest, r, hahead, hexchange, hafter⟩
    · refine ⟨[], halike.simulator, fun k hk => ?_, ?_⟩
      · rw [handlers_place_of_ne hk]
        exact halike.others k hk
      · rw [handlers_place_self, hsame]
        exact halike.ahead
    · obtain ⟨n, h', hrun, hafter'⟩ := exists_run_ask hunbroken' (halike.ahead.trans hahead)
        (by rw [halike.simulator, hexchange])
      refine ⟨List.replicate n j, ?_⟩
      rw [hrun]
      refine ⟨rfl, fun k hk => ?_, ?_⟩
      · rw [handlers_place_of_ne hk, handlers_place_of_ne hk]
        exact halike.others k hk
      · rw [handlers_place_self, handlers_place_self, hafter, hafter']
  · -- another session takes the same step in both halls
    obtain ⟨h, s, hsame⟩ : ∃ h s, (hall.handlers j).turn b hall.simulator = (h, s) := ⟨_, _, rfl⟩
    have hturn : hall.turn b j = hall.place j h s := by
      simp only [Hall.turn, hsame]
    have hturn' : hall'.run b [j] = hall'.place j h s := by
      simp only [run, List.foldl_cons, List.foldl_nil, Hall.turn, halike.others j hj,
        halike.simulator, hsame]
    refine ⟨[j], ?_⟩
    rw [hturn, hturn']
    refine ⟨rfl, fun k hk => ?_, ?_⟩
    · by_cases hkj : k = j
      · subst hkj
        rw [handlers_place_self, handlers_place_self]
      · rw [handlers_place_of_ne hkj, handlers_place_of_ne hkj]
        exact halike.others k hk
    · rw [handlers_place_of_ne (Ne.symm hj), handlers_place_of_ne (Ne.symm hj)]
      exact halike.ahead

theorem Alike.run (halike : Alike i hall hall') (hunbroken : hall.Unbroken)
    (hunbroken' : hall'.Unbroken) (b : Backend σ) (schedule : List ι) :
    ∃ schedule', Alike i (hall.run b schedule) (hall'.run b schedule') := by
  induction schedule generalizing hall hall' with
  | nil => exact ⟨[], halike⟩
  | cons j schedule ih =>
    obtain ⟨first, hfirst⟩ := halike.turn hunbroken hunbroken' b j
    obtain ⟨rest, hrest⟩ := ih hfirst (hunbroken.turn b j) (hunbroken'.run b first)
    refine ⟨first ++ rest, ?_⟩
    rwa [run_cons, run_append]

theorem Alike.start {client : Client} (hsame : client.requests.1 = (clients i).requests.1) (s : σ) :
    Alike i (Hall.start s clients) (Hall.start s (Function.update clients i client)) := by
  refine ⟨rfl, fun j hj => ?_, ?_⟩
  · simp [Hall.start, hj]
  · simp only [Hall.start, Function.update_self]
    exact hsame

/-- A run from the beginning, with a record of what the simulator is asked. -/
def served (b : Backend σ) (s : σ) (clients : ι → Client) (schedule : List ι) :
    Hall ι (σ × List (Text.Bytes × ℕ)) :=
  (start (s, []) clients).run b.recorded schedule

/-- Sessions do not get in each other's way, whoever takes a step when, while no connection breaks.
The simulator is asked what some log says, in which each session has requests of its own, in their
order, from the first one on; the session is sent the lines of the responses to these and no other.
It ends at its first malformed line, at the first request that fails, or when all its lines have
been answered, and one of these happens if it gets its turns; a session that has them all at once is
served from beginning to end. What a client sends besides its requests makes no difference to what
the simulator is asked, or to any other session. -/
theorem served_isolated (b : Backend σ) (s : σ) (clients : ι → Client)
    (hlimit : ∀ i, (clients i).limit = none) (schedule : List ι) :
    (∃ log, Account b s clients (served b s clients schedule) log ∧
      ∀ i, (own i log).map Prod.fst <+: (clients i).requests.1) ∧
    (∀ i, (clients i).turns ≤ schedule.count i →
      ((served b s clients schedule).handlers i).ending ≠ none) ∧
    (∀ i n, i ∉ schedule → (clients i).turns ≤ n →
      ∃ h ending t,
        served b s clients (schedule ++ List.replicate n i) =
          (served b s clients schedule).place i h t ∧
        h.ending = some ending ∧
        session b.recorded (clients i) (served b s clients schedule).simulator =
          ((h.out, ending), t)) ∧
    ∀ i client, client.limit = none → client.requests.1 = (clients i).requests.1 →
      ∃ schedule',
        (served b s (Function.update clients i client) schedule').simulator =
          (served b s clients schedule).simulator ∧
        ∀ j ≠ i, (served b s (Function.update clients i client) schedule').handlers j =
          (served b s clients schedule).handlers j := by
  have hunbroken : (start (s, ([] : List (Text.Bytes × ℕ))) clients).Unbroken := hlimit
  refine ⟨?_, fun i hturns => ?_, fun i n hfresh hturns => ?_, fun i client hlimit' hsame => ?_⟩
  · obtain ⟨log, haccount⟩ := (Account.start b s clients).run hunbroken schedule
    exact ⟨log, haccount, fun i => (haccount.standing i).isPrefix⟩
  · have hdue : ((served b s clients schedule).handlers i).due ≤
        (clients i).turns - schedule.count i := due_run hunbroken schedule i
    apply Handler.due_eq_zero.mp
    omega
  · have hstart : (served b s clients schedule).handlers i = .start (clients i) :=
      handlers_run_of_notMem hfresh
    have hsession := run_session (b := b.recorded) (hunbroken.run b.recorded schedule) hstart
      (hlimit i) hturns
    rwa [← run_append] at hsession
  · have hunbroken' :
        (start (s, ([] : List (Text.Bytes × ℕ))) (Function.update clients i client)).Unbroken := by
      intro j
      by_cases hj : j = i
      · subst hj
        simpa [start, Handler.start] using hlimit'
      · simpa [start, Handler.start, hj] using hlimit j
    obtain ⟨schedule', halike⟩ :=
      (Alike.start hsame (s, [])).run hunbroken hunbroken' b.recorded schedule
    exact ⟨schedule', halike.simulator, halike.others⟩

/-! A client with a malformed line, one whose lines come in pieces, and one that asks for more lines
than there are, all three at a time. -/

namespace Crowd

def bench : Scripted.Bench where
  automatic := true

def members : Fin 3 → Client
  | 0 => { chunks := ["peek x|1\nnon".toUTF8, "sense\npoke y 2|0\n".toUTF8] }
  | 1 => { chunks := ["step 2|1\nst".toUTF8, "ep 1|1\n".toUTF8] }
  | 2 => { chunks := ["poke x 1|0\npeek y|3\nstep 9|1\n".toUTF8] }

def cleanClient : Client where
  chunks := ["peek x|1\n".toUTF8]

def schedule : List (Fin 3) := (List.replicate 10 [0, 1, 2]).flatten

end Crowd

theorem served_isolated_crowd :
    (∀ i, ((served Scripted.backend Crowd.bench Crowd.members Crowd.schedule).handlers i).ending ≠
      none) ∧
    ∃ schedule', ∀ j ≠ 0,
      (served Scripted.backend Crowd.bench (Function.update Crowd.members 0 Crowd.cleanClient)
        schedule').handlers j =
      (served Scripted.backend Crowd.bench Crowd.members Crowd.schedule).handlers j := by
  obtain ⟨-, hends, -, hswap⟩ := served_isolated Scripted.backend Crowd.bench Crowd.members
    (by decide) Crowd.schedule
  refine ⟨fun i => hends i ?_, ?_⟩
  · revert i
    decide +kernel
  · obtain ⟨schedule', -, hothers⟩ := hswap 0 Crowd.cleanClient rfl (by decide +kernel)
    exact ⟨schedule', hothers⟩

end Hall

end Server

end GuardedRtl.Sim
