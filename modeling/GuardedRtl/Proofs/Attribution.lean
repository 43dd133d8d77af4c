import GuardedRtl.Proofs.Latch
import GuardedRtl.Proofs.Transparency

/-! Which lines of its output a simulator with streams gets credited with which command. Reading
takes lines from the front of the output and from nowhere else (`Console.read_cases`), so commands
that succeed one after the other own one segment each (`Local.exchange_consumes`). Main statement:
`Local.exchangeAll_attributed`. -/

namespace GuardedRtl.Sim

open Text (Bytes)

/-- A simulator seen from its streams: all that it puts out, now or later, and all that was written
to it. `late` tells for each read whether it times out before a line has come, `refusals` for each
write whether it fails. -/
structure Console where
  output : LineQueue
  received : List Bytes := []
  late : Stream' Bool
  refusals : Stream' (Option Error)

namespace Console

def write (bs : Bytes) : StateM Console (Except Error Unit) := fun c =>
  let answer : Except Error Unit :=
    match c.refusals.head with
    | some e => .error e
    | none => .ok ()
  (answer, { c with received := c.received ++ [bs], refusals := c.refusals.tail })

def readLine : StateM Console (Except Error Bytes) := fun c =>
  if c.late.head then (.error .timeout, { c with late := c.late.tail })
  else
    let (line, output) := c.output.get
    (line, { c with output, late := c.late.tail })

def terminal : Terminal Console where
  write := write
  readLine := readLine
  closeInput := pure (.ok ())

variable {c c' : Console}

/-- A read takes the first line of the output, or nothing. -/
theorem read_cases {answer : Except Error Bytes} (h : terminal.readLine c = (answer, c')) :
    c'.received = c.received ∧
    ((∃ line, answer = .ok line ∧ c.output.lines = line :: c'.output.lines) ∨
      ∃ e, answer = .error e ∧ c'.output.lines = c.output.lines) := by
  obtain ⟨⟨lines, ending⟩, received, late, refusals⟩ := c
  change readLine _ = _ at h
  unfold readLine at h
  split_ifs at h
  · obtain ⟨rfl, rfl⟩ := Prod.mk.inj h
    exact ⟨rfl, .inr ⟨_, rfl, rfl⟩⟩
  · cases lines with
    | cons line lines =>
      obtain ⟨rfl, rfl⟩ := Prod.mk.inj h
      exact ⟨rfl, .inl ⟨line, rfl, rfl⟩⟩
    | nil =>
      cases ending with
      | none =>
        obtain ⟨rfl, rfl⟩ := Prod.mk.inj h
        exact ⟨rfl, .inr ⟨_, rfl, rfl⟩⟩
      | some e =>
        obtain ⟨rfl, rfl⟩ := Prod.mk.inj h
        exact ⟨rfl, .inr ⟨_, rfl, rfl⟩⟩

end Console

namespace Local

open Console (terminal)

variable {c c' : Console} {prompt command : Bytes}

theorem readResponse_cases {expected : ℕ} {got : ℕ} {answer : Except Error Bytes}
    (h : readResponse terminal command expected got c = (answer, c')) :
    c'.received = c.received ∧
    ((∃ line, answer = .ok line ∧ c.output.lines = line :: c'.output.lines) ∨
      ∃ e, answer = .error e ∧ c'.output.lines = c.output.lines) := by
  obtain ⟨read, c₁, hread⟩ : ∃ a s, terminal.readLine c = (a, s) := ⟨_, _, rfl⟩
  obtain ⟨hreceived, hcases⟩ := Console.read_cases hread
  simp only [readResponse, bind, StateT.bind, hread] at h
  rcases hcases with ⟨line, rfl, hline⟩ | ⟨e, rfl, hsame⟩
  · obtain ⟨rfl, rfl⟩ := Prod.mk.inj h
    exact ⟨hreceived, .inl ⟨line, rfl, hline⟩⟩
  · have hfailed : ∃ e', (.error e', c₁) = (answer, c') := by
      cases e <;> exact ⟨_, h⟩
    obtain ⟨e', he'⟩ := hfailed
    obtain ⟨rfl, rfl⟩ := Prod.mk.inj he'
    exact ⟨hreceived, .inr ⟨e', rfl, hsame⟩⟩

/-- The lines that were read are the next ones of the output, and all of them are in the response if
there is no error. -/
theorem readLines_consumes (expected : ℕ) (missing : ℕ) (got : List Bytes) {r : Response}
    (h : readLines terminal command expected missing got c = (r, c')) :
    c'.received = c.received ∧ ∃ read, c.output.lines = read ++ c'.output.lines ∧
      (r.error = none → r.lines = got ++ read ∧ read.length = missing) := by
  induction missing generalizing got c with
  | zero =>
    obtain ⟨rfl, rfl⟩ := Prod.mk.inj h
    exact ⟨rfl, [], rfl, fun _ => ⟨by simp, rfl⟩⟩
  | succ missing ih =>
    obtain ⟨answer, c₁, hread⟩ :
      ∃ a s, readResponse terminal command expected got.length c = (a, s) := ⟨_, _, rfl⟩
    obtain ⟨hreceived, ⟨line, rfl, hline⟩ | ⟨e, rfl, hsame⟩⟩ := readResponse_cases hread
    · simp only [readLines, bind, StateT.bind, hread] at h
      obtain ⟨hreceived', read, hlines, hall⟩ := ih (got ++ [line]) h
      refine ⟨hreceived'.trans hreceived, line :: read, ?_, fun hnone => ?_⟩
      · rw [hline, hlines, List.cons_append]
      · obtain ⟨hr, hlength⟩ := hall hnone
        exact ⟨by simp [hr], by simp [hlength]⟩
    · simp only [readLines, bind, StateT.bind, hread] at h
      obtain ⟨rfl, rfl⟩ := Prod.mk.inj h
      exact ⟨hreceived, [], hsame.symm, fun hnone => by simp at hnone⟩

/-- A response without an error: the lines read for it are one that starts with the prompt, and then
those of the response. -/
def Owns (prompt : Bytes) (q : Request) (r : Response) (read : List Bytes) : Prop :=
  ∃ echo, read = echo :: r.lines ∧ prompt.isPrefixOf echo ∧ r.lines.length = q.count

theorem converse_consumes {q : Request} {r : Response}
    (h : converse terminal prompt q.command q.count c = (r, c')) :
    c'.received = c.received ++ [q.command ++ [lineFeed]] ∧
    ∃ read, c.output.lines = read ++ c'.output.lines ∧ (r.error = none → Owns prompt q r read) := by
  obtain ⟨sent, c₁, hwrite⟩ : ∃ a s, terminal.write (q.command ++ [lineFeed]) c = (a, s) := ⟨_, _, rfl⟩
  have hc₁ : c₁.received = c.received ++ [q.command ++ [lineFeed]] ∧ c₁.output = c.output := by
    obtain ⟨-, rfl⟩ := Prod.mk.inj hwrite
    exact ⟨rfl, rfl⟩
  simp only [converse, bind, StateT.bind, hwrite] at h
  cases sent with
  | error e =>
    obtain ⟨rfl, rfl⟩ := Prod.mk.inj h
    exact ⟨hc₁.1, [], by rw [hc₁.2, List.nil_append], fun hnone => by cases hnone⟩
  | ok _ =>
    obtain ⟨first, c₂, hfirst⟩ :
      ∃ a s, readResponse terminal q.command q.count 0 c₁ = (a, s) := ⟨_, _, rfl⟩
    obtain ⟨hreceived, ⟨echo, rfl, hecho⟩ | ⟨e, rfl, hsame⟩⟩ := readResponse_cases hfirst
    all_goals simp only [bind, StateT.bind, hfirst] at h
    · rw [hc₁.2] at hecho
      rw [hc₁.1] at hreceived
      split_ifs at h with hprompt
      · obtain ⟨hreceived', read, hlines, hall⟩ := readLines_consumes q.count _ [] h
        refine ⟨hreceived'.trans hreceived, echo :: read, ?_, fun hnone => ?_⟩
        · rw [hecho, hlines, List.cons_append]
        · obtain ⟨hr, hlength⟩ := hall hnone
          rw [List.nil_append] at hr
          refine ⟨echo, by rw [hr], hprompt, ?_⟩
          rw [hr, hlength]
      · obtain ⟨rfl, rfl⟩ := Prod.mk.inj h
        exact ⟨hreceived, [echo], hecho, fun hnone => by cases hnone⟩
    · obtain ⟨rfl, rfl⟩ := Prod.mk.inj h
      exact ⟨hreceived.trans hc₁.1, [], by rw [hsame, hc₁.2, List.nil_append],
        fun hnone => by cases hnone⟩

/-- The commands that were sent: those of one line, up to the first that fails. -/
def sent : List (Request × Response) → List Request
  | [] => []
  | (q, r) :: rest =>
    if isOneLine q.command then q :: (if r.error.isSome then [] else sent rest) else sent rest

/-- The exchanges without an error. -/
def successes (exchanges : List (Request × Response)) : List (Request × Response) :=
  exchanges.filter (·.2.error.isNone)

/-- Once a command has failed, nothing is read or written any more. -/
theorem exchangeAll_failed (prompt : Bytes) (calls : List Request) {l : Local Console}
    {first : Bytes} (hopen : l.closed = false) (hfailed : l.failed = some first) :
    ((backend terminal prompt).exchangeAll calls l).2 = l ∧
    ∀ r ∈ ((backend terminal prompt).exchangeAll calls l).1, r.error.isSome := by
  induction calls with
  | nil => exact ⟨rfl, fun r hr => (List.not_mem_nil hr).elim⟩
  | cons q calls ih =>
    obtain ⟨r, hr, hexchange⟩ : ∃ r : Response, r.error.isSome ∧
        (backend terminal prompt).exchange q.command q.count l = (r, l) := by
      cases hline : isOneLine q.command with
      | true => exact ⟨_, rfl, exchange_failed hline hopen hfailed _⟩
      | false => exact ⟨_, rfl, exchange_invalid hline _⟩
    rw [Backend.exchangeAll_cons hexchange]
    refine ⟨ih.1, fun r' hr' => ?_⟩
    rcases List.mem_cons.mp hr' with rfl | hr'
    · exact hr
    · exact ih.2 r' hr'

/-- One call: a command of more than one line changes nothing; any other is written, and what is
read for it comes from the front of the output. -/
theorem exchange_consumes {l l' : Local Console} {q : Request} {r : Response}
    (hopen : l.closed = false) (hfailed : l.failed = none)
    (h : (backend terminal prompt).exchange q.command q.count l = (r, l')) :
    (isOneLine q.command = false ∧ r.error.isSome ∧ l' = l) ∨
    (isOneLine q.command ∧ l'.closed = false ∧
      l'.failed = (if r.error.isSome then some q.command else none) ∧
      l'.peer.received = l.peer.received ++ [q.command ++ [lineFeed]] ∧
      ∃ read, l.peer.output.lines = read ++ l'.peer.output.lines ∧
        (r.error = none → Owns prompt q r read)) := by
  cases hline : isOneLine q.command with
  | false =>
    obtain ⟨rfl, rfl⟩ := Prod.mk.inj ((exchange_invalid hline _).symm.trans h)
    exact .inl ⟨rfl, rfl, rfl⟩
  | true =>
    obtain ⟨rfl, rfl⟩ := Prod.mk.inj ((exchange_open hline hopen hfailed _).symm.trans h)
    obtain ⟨hreceived, hread⟩ := converse_consumes (c := l.peer) rfl
    exact .inr ⟨rfl, hopen, rfl, hreceived, hread⟩

/-- A run of calls: the lines read for those that succeed follow each other without a gap, and what
was read after them is the share of the one that failed. -/
theorem exchangeAll_consumes {calls : List Request} {l l' : Local Console} {rs : List Response}
    (hopen : l.closed = false) (hfailed : l.failed = none)
    (h : (backend terminal prompt).exchangeAll calls l = (rs, l')) :
    l'.peer.received = l.peer.received ++ (sent (calls.zip rs)).map (·.command ++ [lineFeed]) ∧
    ∃ segments unread, l.peer.output.lines = segments.flatten ++ unread ∧
      List.Forall₂ (fun x read => Owns prompt x.1 x.2 read) (successes (calls.zip rs)) segments ∧
      l'.peer.output.lines <:+ unread ∧
      (l'.failed = none → l'.peer.output.lines = unread) := by
  induction calls generalizing l rs with
  | nil =>
    obtain ⟨rfl, rfl⟩ := Prod.mk.inj h
    exact ⟨by simp [sent], [], _, rfl, .nil, List.suffix_rfl, fun _ => rfl⟩
  | cons q calls ih =>
    obtain ⟨r, l₁, hexchange⟩ :
      ∃ r s, (backend terminal prompt).exchange q.command q.count l = (r, s) := ⟨_, _, rfl⟩
    obtain ⟨rs', l₂, hrest⟩ :
      ∃ rs s, (backend terminal prompt).exchangeAll calls l₁ = (rs, s) := ⟨_, _, rfl⟩
    rw [Backend.exchangeAll_cons hexchange, hrest] at h
    obtain ⟨rfl, rfl⟩ : r :: rs' = rs ∧ l₂ = l' := Prod.mk.inj h
    rw [List.zip_cons_cons]
    obtain ⟨hline, hr, rfl⟩ | ⟨hline, hopen₁, hfailed₁, hreceived, read, hread, howns⟩ :=
      exchange_consumes hopen hfailed hexchange
    · -- a command that is not sent leaves everything as it was
      have hskip : successes ((q, r) :: calls.zip rs') = successes (calls.zip rs') := by
        apply List.filter_cons_of_neg
        simpa [← Option.isSome_iff_ne_none] using hr
      rw [hskip, sent, hline]
      exact ih hopen hfailed hrest
    · cases herror : r.error with
      | none =>
        have howned :
            successes ((q, r) :: calls.zip rs') = (q, r) :: successes (calls.zip rs') := by
          simp [successes, herror]
        rw [herror] at hfailed₁
        obtain ⟨hreceived₁, segments, unread, hlines, hsegments, hleft⟩ := ih hopen₁ hfailed₁ hrest
        refine ⟨?_, read :: segments, unread, ?_, ?_, hleft⟩
        · simp [sent, hline, herror, hreceived₁, hreceived]
        · rw [hread, hlines, List.flatten_cons, List.append_assoc]
        · rw [howned]
          exact .cons (howns herror) hsegments
      | some e =>
        -- nothing is read after a failure, and no later exchange succeeds
        rw [herror] at hfailed₁
        obtain ⟨hsame, hrefused⟩ := exchangeAll_failed prompt calls hopen₁ hfailed₁
        rw [hrest] at hsame hrefused
        obtain rfl : l₂ = l₁ := hsame
        have hnone : successes ((q, r) :: calls.zip rs') = [] := by
          rw [successes, List.filter_eq_nil_iff]
          intro x hx
          rw [Option.isNone_iff_eq_none, ← ne_eq, ← Option.isSome_iff_ne_none]
          rcases List.mem_cons.mp hx with rfl | hx
          · simp [herror]
          · exact hrefused x.2 (List.of_mem_zip hx).2
        refine ⟨?_, [], l.peer.output.lines, rfl, ?_, ?_, ?_⟩
        · simp [sent, hline, herror, hreceived]
        · rw [hnone]
          exact .nil
        · exact ⟨read, hread.symm⟩
        · simp [hfailed₁]

/-- What comes up to the banner belongs to no command. -/
theorem awaitBanner_consumes {banner : Bytes} {patience : ℕ}
    (h : awaitBanner terminal banner patience c = (.ok (), c')) :
    c'.received = c.received ∧ ∃ startup last, c.output.lines = startup ++ last :: c'.output.lines ∧
      occursIn banner last ∧
      ∀ line ∈ startup, occursIn banner line = false := by
  induction patience generalizing c with
  | zero => cases (Prod.mk.inj h).1
  | succ patience ih =>
    obtain ⟨answer, c₁, hread⟩ : ∃ a s, terminal.readLine c = (a, s) := ⟨_, _, rfl⟩
    obtain ⟨hreceived, ⟨line, rfl, hline⟩ | ⟨e, rfl, -⟩⟩ := Console.read_cases hread
    all_goals simp only [awaitBanner, bind, StateT.bind, hread] at h
    · split_ifs at h with hbanner
      · obtain ⟨-, rfl⟩ := Prod.mk.inj h
        exact ⟨hreceived, [], line, hline, hbanner, by simp⟩
      · obtain ⟨hreceived₁, startup, last, hlines, hlast, hstartup⟩ := ih h
        refine ⟨hreceived₁.trans hreceived, line :: startup, last, ?_, hlast, ?_⟩
        · rw [hline, hlines, List.cons_append]
        · intro line' hmem
          rcases List.mem_cons.mp hmem with rfl | hmem
          · simpa using hbanner
          · exact hstartup line' hmem
    · cases (Prod.mk.inj h).1

theorem isOneLine_of_mem_sent {exchanges : List (Request × Response)} {q : Request}
    (h : q ∈ sent exchanges) : isOneLine q.command := by
  induction exchanges with
  | nil => cases h
  | cons x rest ih =>
    obtain ⟨q', r⟩ := x
    rw [sent] at h
    split_ifs at h with hline herror
    · rw [List.mem_singleton] at h
      rwa [h]
    · rcases List.mem_cons.mp h with rfl | h
      · exact hline
      · exact ih h
    · exact ih h

/-- Commands of one line each, written one after the other, are read as the lines they are. -/
theorem splitOn_commands {qs : List Request} (h : ∀ q ∈ qs, isOneLine q.command) :
    (qs.map (·.command ++ [lineFeed])).flatten.splitOn lineFeed = qs.map Request.command ++ [[]] := by
  induction qs with
  | nil => simp
  | cons q qs ih =>
    obtain ⟨hq, hqs⟩ := List.forall_mem_cons.mp h
    have hline := notMem_of_isOneLine hq (.inr rfl)
    simp only [List.map_cons, List.flatten_cons, List.append_assoc, List.cons_append,
      List.nil_append]
    rw [← ih hqs]
    exact List.splitOn_append_cons_self_of_not_mem hline _

end Local

/-- Whatever a simulator puts out, whichever reads time out and whichever writes fail, once it has
shown its banner: the lines read for commands that succeed are consecutive segments of its output
right after the banner, each one line with the prompt and then the lines of the response, as many as
were asked for. What is written is the commands of one line, up to the first that fails, and nothing
that reads as another line. -/
theorem Local.exchangeAll_attributed {c ready : Console} {banner : Bytes} {patience : ℕ}
    (hfresh : c.received = [])
    (hready : Local.awaitBanner Console.terminal banner patience c = (.ok (), ready))
    (prompt : Bytes) (calls : List Request) {rs : List Response} {l : Local Console}
    (hrun : (Local.backend Console.terminal prompt).exchangeAll calls { peer := ready } = (rs, l)) :
    (∃ startup last segments unread,
      c.output.lines = startup ++ last :: (segments.flatten ++ unread) ∧
      occursIn banner last ∧
      (∀ line ∈ startup, occursIn banner line = false) ∧
      List.Forall₂ (fun x segment => Local.Owns prompt x.1 x.2 segment)
        (Local.successes (calls.zip rs)) segments ∧
      l.peer.output.lines <:+ unread ∧ (l.failed = none → l.peer.output.lines = unread)) ∧
    l.peer.received = (Local.sent (calls.zip rs)).map (·.command ++ [lineFeed]) ∧
    l.peer.received.flatten.splitOn lineFeed =
      (Local.sent (calls.zip rs)).map Request.command ++ [[]] := by
  obtain ⟨hstart, startup, last, hlines, hlast, hstartup⟩ := Local.awaitBanner_consumes hready
  obtain ⟨hreceived, segments, unread, hrest, hsegments, hleft⟩ :=
    Local.exchangeAll_consumes rfl rfl hrun
  rw [hstart, hfresh, List.nil_append] at hreceived
  refine ⟨⟨startup, last, segments, unread, ?_, hlast, hstartup, hsegments, hleft⟩, hreceived, ?_⟩
  · rw [hlines, hrest]
  · rw [hreceived]
    exact Local.splitOn_commands fun q hq => Local.isOneLine_of_mem_sent hq

/-! A simulator that greets, answers two commands, and is too late with the third. -/

namespace Tardy

def console : Console where
  output := ⟨["[info] starting", "Running treadle.TreadleRepl", "treadle>> poke x 1",
    "treadle>> peek x", "peek x 5", "treadle>> step 1", "step took 1 ms"], none⟩
  late := fun n => n = 6
  refusals := Stream'.const none

def ready : Console := (Local.awaitBanner Console.terminal "TreadleRepl" 2 console).2

def calls : List Request :=
  [⟨"poke x 1", 0⟩, ⟨"peek x\nquit", 1⟩, ⟨"peek x", 1⟩, ⟨"step 1", 1⟩, ⟨"peek x", 1⟩]

def run : List Response × Local Console :=
  (Local.backend Console.terminal "treadle>> ").exchangeAll calls { peer := ready }

theorem successes_run : Local.successes (calls.zip run.1) =
    [(⟨"poke x 1", 0⟩, ⟨[], none⟩), (⟨"peek x", 1⟩, ⟨["peek x 5"], none⟩)] := by
  decide +kernel

theorem sent_run :
    Local.sent (calls.zip run.1) = [⟨"poke x 1", 0⟩, ⟨"peek x", 1⟩, ⟨"step 1", 1⟩] := by
  decide +kernel

end Tardy

theorem Local.exchangeAll_attributed_tardy :
    (∃ startup last segments unread,
      Tardy.console.output.lines = startup ++ last :: (segments.flatten ++ unread) ∧
      List.Forall₂ (fun x segment => Local.Owns "treadle>> " x.1 x.2 segment)
        [(⟨"poke x 1", 0⟩, ⟨[], none⟩), (⟨"peek x", 1⟩, ⟨["peek x 5"], none⟩)] segments) ∧
    Tardy.run.2.peer.received = ["poke x 1\n", "peek x\n", "step 1\n"] := by
  have hready : Local.awaitBanner Console.terminal "TreadleRepl" 2 Tardy.console =
      (.ok (), Tardy.ready) := rfl
  obtain ⟨⟨startup, last, segments, unread, hlines, -, -, hsegments, -⟩, hreceived, -⟩ :=
    Local.exchangeAll_attributed rfl hready "treadle>> " Tardy.calls
      (Prod.mk.eta (p := Tardy.run)).symm
  rw [Tardy.successes_run] at hsegments
  rw [Tardy.sent_run] at hreceived
  exact ⟨⟨startup, last, segments, unread, hlines, hsegments⟩, hreceived⟩

end GuardedRtl.Sim
