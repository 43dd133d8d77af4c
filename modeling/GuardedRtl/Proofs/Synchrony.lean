import GuardedRtl.Proofs.Latch
import GuardedRtl.Proofs.Transparency
import GuardedRtl.Sim.Scripted.Loopback

/-! What a client knows of the simulator when a server has answered it. While the client writes or
reads, anything can happen: bytes travel, the server works, other clients have the simulator, the
connection breaks. A client gets the lines of responses in order and none twice, however far behind
it is (`Link.Behind.happen`), so with the last line of a response it has caught up with everything
it ever asked (`Link.Behind.caughtUp`), unless what was given as one line is two. A command without
lines has no such line to wait for. Main statement: `Remote.exchange_synchronous`. -/

namespace GuardedRtl.Sim

open Text (Bytes)

variable {σ : Type}

/-- A stream that begins with some lines is of these lines and others. -/
theorem lines_of_frame_append {taken lines : List Bytes} {rest : Bytes}
    (htaken : ∀ v ∈ taken, lineFeed ∉ v) (hlines : ∀ w ∈ lines, lineFeed ∉ w)
    (h : frame taken ++ rest = frame lines) : ∃ more, lines = taken ++ more := by
  induction taken generalizing lines with
  | nil => exact ⟨lines, rfl⟩
  | cons v taken ih =>
    cases lines with
    | nil => simp at h
    | cons w lines =>
      rw [List.forall_mem_cons] at htaken hlines
      rw [frame_cons, frame_cons, List.append_assoc, List.cons_append] at h
      obtain ⟨hfirst, hrest⟩ := firstLine_unique htaken.1 hlines.1 h
      obtain ⟨more, hmore⟩ := ih htaken.2 hlines.2 hrest
      exact ⟨more, by rw [hfirst, hmore, List.cons_append]⟩

/-- Responses that were met have as many lines as were called for. -/
theorem Request.length_lines {met : List (Request × Response)} (h : ∀ p ∈ met, p.1.MetBy p.2) :
    (met.flatMap (·.2.lines)).length = ((met.map Prod.fst).map Request.count).sum := by
  rw [List.length_flatMap, List.map_map]
  congr 1
  exact List.map_congr_left fun p hp => (h p hp).length_eq

namespace Backend

/-- The same simulator, with a log of what it is asked and what it answers. -/
def logged (b : Backend σ) : Backend (σ × List (Request × Response)) where
  exchange command expected := fun (s, log) =>
    let (r, s) := b.exchange command expected s
    (r, s, log ++ [(⟨command, expected⟩, r)])
  close := fun (s, log) =>
    let (answer, s) := b.close s
    (answer, s, log)

theorem logged_exchange {b : Backend σ} {q : Request} {r : Response} {s t : σ}
    (h : b.exchange q.command q.count s = (r, t)) (log : List (Request × Response)) :
    b.logged.exchange q.command q.count (s, log) = (r, t, log ++ [(q, r)]) := by
  simp only [logged, h]

end Backend

/-- What can happen to a link without its client. -/
inductive Event where
  | arrive (n : ℕ)
  | serve
  | deliver (n : ℕ)
  /-- Another client has the simulator. -/
  | other (q : Request)
  /-- The connection breaks. -/
  | cut

namespace Link

/-- What is on its way is lost. -/
def cut (l : Link σ) : Link σ := { l with upstream := [], downstream := [], hungUp := true }

/-- The log has the requests of this link only. -/
def happen (b : Backend σ) (l : Link (σ × List (Request × Response))) :
    Event → Link (σ × List (Request × Response))
  | .arrive n => l.arrive n
  | .serve => (l.serve b.logged).getD l
  | .deliver n => l.deliver n
  | .other q =>
    { l with simulator := ((b.exchange q.command q.count l.simulator.1).2, l.simulator.2) }
  | .cut => l.cut

/-- A client that has sent some requests and taken some lines is not ahead of the simulator: the
requests that were `met` gave the bytes of these lines, and all that is on its way or waits. One more
at most was given to the simulator, which failed, and none as long as the connection holds, when
nothing is lost either. -/
structure Behind (l : Link (σ × List (Request × Response))) (sent : List Request)
    (taken : List Bytes) (met : List (Request × Response)) : Prop where
  plain : ∀ q ∈ sent, isOneLine q.command ∧ q.count < 2 ^ 63
  whole : ∀ v ∈ taken, lineFeed ∉ v
  good : ∀ p ∈ met, p.1.MetBy p.2
  log : l.simulator.2 = met ∨ ∃ p, ¬ p.1.MetBy p.2 ∧ l.simulator.2 = met ++ [p]
  asked : l.simulator.2.map Prod.fst <+: sent
  given : frame taken ++ (l.inbox ++ l.downstream) <+: frame (met.flatMap (·.2.lines))
  holds : l.hungUp = false → l.simulator.2 = met ∧
    frame taken ++ (l.inbox ++ l.downstream) = frame (met.flatMap (·.2.lines)) ∧
    ∃ todo, sent = met.map Prod.fst ++ todo ∧
      l.requests.Follows l.upstream (todo.map Request.text)

variable {b : Backend σ} {l l' : Link (σ × List (Request × Response))}
  {sent : List Request} {taken : List Bytes} {met : List (Request × Response)} {q : Request}

theorem Behind.start (s : σ) : Behind { simulator := (s, []) } [] [] [] where
  plain := by simp
  whole := by simp
  good := by simp
  log := .inl rfl
  asked := List.prefix_rfl
  given := List.prefix_rfl
  holds := fun _ => ⟨rfl, rfl, [], rfl, (LineReader.expects_start []).follows⟩

/-- Once the connection does not hold, nothing is expected of the requests. -/
theorem Behind.hangUp (h : l.Behind sent taken met) :
    Behind { l with hungUp := true } sent taken met :=
  { h with holds := fun hopen => by cases hopen }

theorem Behind.arrive (h : l.Behind sent taken met) (n : ℕ) :
    (l.arrive n).Behind sent taken met := by
  refine { h with holds := fun hopen => ?_ }
  obtain ⟨hlog, hgiven, todo, rfl, hfollows⟩ := h.holds hopen
  refine ⟨hlog, hgiven, todo, rfl, hfollows.feed ?_ n⟩
  intro line hline
  obtain ⟨q, hq, rfl⟩ := List.mem_map.mp hline
  exact Request.notMem_text (h.plain q (by simp [hq])).1 (.inr rfl)

theorem Behind.deliver (h : l.Behind sent taken met) (n : ℕ) :
    (l.deliver n).Behind sent taken met := by
  have hsame : (l.deliver n).inbox ++ (l.deliver n).downstream = l.inbox ++ l.downstream := by
    simp [Link.deliver]
  refine { h with given := ?_, holds := fun hopen => ?_ }
  · rw [hsame]
    exact h.given
  · rw [hsame]
    exact h.holds hopen

theorem Behind.cut (h : l.Behind sent taken met) : l.cut.Behind sent taken met := by
  refine { h with given := ?_, holds := fun hopen => by cases hopen }
  refine List.IsPrefix.trans ?_ h.given
  simp [Link.cut]

/-- The server answers the next of the requests that the client sent, or hangs up on it. -/
theorem Behind.serve (h : l.Behind sent taken met)
    (hserve : l.serve b.logged = some l') : ∃ met', l'.Behind sent taken met' := by
  obtain ⟨hopen, ⟨-, rfl⟩ | ⟨line, rest, hlines, rfl⟩⟩ := serve_cases hserve
  · exact ⟨met, h.hangUp⟩
  · obtain ⟨hlog, hgiven, todo, rfl, hfollows⟩ := h.holds hopen
    obtain ⟨first, more, hfirst, rfl, hrest⟩ := hfollows.take hlines
    cases todo with
    | nil => simp at hfirst
    | cons q todo =>
      obtain ⟨rfl, rfl⟩ := List.cons.inj hfirst
      obtain ⟨hline, hcount⟩ := h.plain q (by simp)
      have hparse := Request.parse_text hcount
      have hread : (withoutReturn q.text).toByteArray.data.toList = q.text := by
        rw [List.toList_data_toByteArray, Request.withoutReturn_text hline]
      rw [← hread] at hparse
      obtain ⟨r, t, hexchange⟩ : ∃ r t, b.exchange q.command q.count l.simulator.1 = (r, t) :=
        ⟨_, _, rfl⟩
      have hlogged := Backend.logged_exchange hexchange l.simulator.2
      have hasked (r : Response) : (l.simulator.2 ++ [(q, r)]).map Prod.fst <+:
          met.map Prod.fst ++ q :: todo := by
        simp [hlog]
      by_cases hr : q.MetBy r
      · have hrespond := Server.respondAll_answered (Server.respond_met hparse hlogged hr) [] []
        rw [List.nil_append] at hrespond
        rw [answer_eq hrespond]
        have hmore : frame taken ++ (l.inbox ++ (l.downstream ++ frame r.lines)) =
            frame ((met ++ [(q, r)]).flatMap (·.2.lines)) := by
          rw [← List.append_assoc l.inbox, ← List.append_assoc, hgiven]
          simp
        have hlog' : l.simulator.2 ++ [(q, r)] = met ++ [(q, r)] := by rw [hlog]
        refine ⟨met ++ [(q, r)], h.plain, h.whole, ?_, .inl hlog', hasked r, ?_,
          fun _ => ⟨hlog', hmore, todo, by simp, hrest⟩⟩
        · exact List.forall_mem_append.mpr ⟨h.good, List.forall_mem_singleton.mpr hr⟩
        · rw [hmore]
      · rw [answer_eq (Server.respondAll_ended (Server.respond_failed hparse hlogged hr) [] {})]
        refine ⟨met, { h with
          log := .inr ⟨(q, r), hr, ?_⟩, asked := hasked r, given := ?_, holds := ?_ }⟩
        · rw [hlog]
        · simpa using h.given
        · intro hhung
          cases hhung

theorem Behind.happen (h : l.Behind sent taken met) (b : Backend σ) (event : Event) :
    ∃ met', (l.happen b event).Behind sent taken met' := by
  cases event with
  | arrive n => exact ⟨met, h.arrive n⟩
  | deliver n => exact ⟨met, h.deliver n⟩
  | cut => exact ⟨met, h.cut⟩
  | other q => exact ⟨met, { h with }⟩
  | serve =>
    cases hserve : l.serve b.logged with
    | none => exact ⟨met, by simpa [Link.happen, hserve] using h⟩
    | some l' =>
      obtain ⟨met', h'⟩ := h.serve hserve
      exact ⟨met', by simpa [Link.happen, hserve] using h'⟩

theorem Behind.happenAll (h : l.Behind sent taken met) (b : Backend σ) (events : List Event) :
    ∃ met', (events.foldl (Link.happen b) l).Behind sent taken met' := by
  induction events generalizing l met with
  | nil => exact ⟨met, h⟩
  | cons event events ih =>
    obtain ⟨met', h'⟩ := h.happen b event
    exact ih h'

theorem Behind.send (h : l.Behind sent taken met) (hline : isOneLine q.command)
    (hcount : q.count < 2 ^ 63) :
    Behind { l with upstream := l.upstream ++ (q.text ++ [lineFeed]) } (sent ++ [q]) taken met := by
  refine { h with plain := ?_, asked := h.asked.trans (List.prefix_append ..), holds := ?_ }
  · exact List.forall_mem_append.mpr ⟨h.plain, List.forall_mem_singleton.mpr ⟨hline, hcount⟩⟩
  · intro hopen
    obtain ⟨hlog, hgiven, todo, rfl, hfollows⟩ := h.holds hopen
    refine ⟨hlog, hgiven, todo ++ [q], by simp, ?_⟩
    simpa using hfollows.append [q.text]

theorem Behind.take {v rest : Bytes} (h : l.Behind sent taken met)
    (hinbox : l.inbox = v ++ lineFeed :: rest) (hv : lineFeed ∉ v) :
    Behind { l with inbox := rest } sent (taken ++ [v]) met := by
  have hsame : frame (taken ++ [v]) ++ (rest ++ l.downstream) =
      frame taken ++ (l.inbox ++ l.downstream) := by
    simp [hinbox]
  refine { h with whole := ?_, given := ?_, holds := fun hopen => ?_ }
  · exact List.forall_mem_append.mpr ⟨h.whole, List.forall_mem_singleton.mpr hv⟩
  · rw [hsame]
    exact h.given
  · rw [hsame]
    exact h.holds hopen

theorem Behind.begins (h : l.Behind sent taken met) : met <+: l.simulator.2 := by
  rcases h.log with hlog | ⟨p, -, hlog⟩
  · rw [hlog]
  · rw [hlog]
    exact List.prefix_append ..

/-- A client that has taken all the lines it asked for, the last of them for its last request, has
caught up, if what the simulator gives as a line is one. -/
theorem Behind.caughtUp (h : l.Behind (sent ++ [q]) taken met)
    (hcount : taken.length = ((sent ++ [q]).map Request.count).sum) (hq : 0 < q.count)
    (hone : ∀ p ∈ met, ∀ line ∈ p.2.lines, lineFeed ∉ line) :
    l.simulator.2 = met ∧ met.map Prod.fst = sent ++ [q] ∧ taken = met.flatMap (·.2.lines) := by
  obtain ⟨rest, hgiven⟩ := h.given
  rw [List.append_assoc] at hgiven
  have hlines : ∀ w ∈ met.flatMap (·.2.lines), lineFeed ∉ w := by
    intro w hw
    obtain ⟨p, hp, hmem⟩ := List.mem_flatMap.mp hw
    exact hone p hp w hmem
  obtain ⟨more, hmore⟩ := lines_of_frame_append h.whole hlines hgiven
  have hlength := congrArg List.length hmore
  rw [Request.length_lines h.good, List.length_append, hcount] at hlength
  have hall : met.map Prod.fst = sent ++ [q] := by
    have hbegins : met.map Prod.fst <+: sent ++ [q] := (h.begins.map Prod.fst).trans h.asked
    rcases List.prefix_concat_iff.mp hbegins with hall | ⟨left, rfl⟩
    · exact hall
    · -- without the last request there are too few lines
      simp only [List.map_append, List.sum_append, List.map_cons, List.map_nil, List.sum_cons]
        at hlength
      omega
  have hlog : l.simulator.2 = met := by
    refine (h.begins.eq_of_length_le ?_).symm
    have := h.asked.length_le
    rwa [← hall, List.length_map, List.length_map] at this
  refine ⟨hlog, hall, ?_⟩
  rw [hall] at hlength
  have hnone : more = [] := List.eq_nil_of_length_eq_zero (by omega)
  rw [hmore, hnone, List.append_nil]

end Link

/-- What becomes of one thing that a client does: all that happens before it, and the error that it
ends in. A write that fails has sent some of its bytes. -/
structure Fate where
  events : List Event := []
  failure : Option Error := none
  sent : ℕ := 0

/-- A link, with what becomes of all that its client will do. -/
structure Wire (σ : Type) where
  link : Link (σ × List (Request × Response))
  fates : Stream' Fate

namespace Wire

/-- Lets happen what happens next. -/
def elapse (b : Backend σ) (w : Wire σ) : Wire σ :=
  ⟨w.fates.head.events.foldl (Link.happen b) w.link, w.fates.tail⟩

def send (w : Wire σ) (bs : Bytes) : Wire σ :=
  { w with link := { w.link with upstream := w.link.upstream ++ bs } }

def write (b : Backend σ) (bs : Bytes) : StateM (Wire σ) (Except Error Unit) := fun w =>
  match w.fates.head.failure with
  | some e => (.error e, (w.elapse b).send (bs.take w.fates.head.sent))
  | none => (.ok (), (w.elapse b).send bs)

/-- A line that has not arrived is not waited for any longer. -/
def readLine (b : Backend σ) : StateM (Wire σ) (Except Error Bytes) := fun w =>
  match w.fates.head.failure, Channel.takeLine (w.elapse b).link.inbox with
  | some e, _ => (.error e, w.elapse b)
  | none, none =>
    (.error (if (w.elapse b).link.hungUp then .endOfInput else .timeout), w.elapse b)
  | none, some (line, rest) =>
    (.ok line, { w.elapse b with link := { (w.elapse b).link with inbox := rest } })

def connection (b : Backend σ) : Connection (Wire σ) where
  address := "127.0.0.1:0"
  write := write b
  readLine := readLine b
  close := fun w => (.ok (), { w with link := w.link.cut })

variable {b : Backend σ} {w w' : Wire σ} {sent : List Request} {taken : List Bytes}
  {met : List (Request × Response)} {q : Request}

theorem write_behind (h : w.link.Behind sent taken met)
    (hline : isOneLine q.command) (hcount : q.count < 2 ^ 63)
    (hwrite : write b (q.text ++ [lineFeed]) w = (.ok (), w')) :
    ∃ met', w'.link.Behind (sent ++ [q]) taken met' := by
  obtain ⟨met', h'⟩ := h.happenAll b w.fates.head.events
  unfold write at hwrite
  split at hwrite
  · cases hwrite
  · obtain ⟨-, rfl⟩ := Prod.mk.inj hwrite
    exact ⟨met', h'.send hline hcount⟩

theorem readLine_behind (h : w.link.Behind sent taken met)
    {line : Bytes} (hread : readLine b w = (.ok line, w')) :
    ∃ met', w'.link.Behind sent (taken ++ [line]) met' := by
  obtain ⟨met', h'⟩ := h.happenAll b w.fates.head.events
  unfold readLine at hread
  split at hread
  · cases hread
  · cases hread
  next v rest _ htake =>
    obtain ⟨hline, rfl⟩ := Prod.mk.inj hread
    obtain rfl := Except.ok.inj hline
    obtain ⟨hinbox, hv⟩ := Channel.eq_append_of_takeLine htake
    exact ⟨met', h'.take hinbox hv⟩

end Wire

namespace Remote

variable {b : Backend σ} {w w' : Wire σ} {sent : List Request} {taken : List Bytes}
  {met : List (Request × Response)} {q : Request} {a : Response}

theorem readLines_behind {command : Bytes} {expected missing : ℕ} {got : List Bytes}
    (h : w.link.Behind sent taken met)
    (hread : readLines (Wire.connection b) command expected missing got w = (a, w'))
    (ha : a.error = none) :
    ∃ new met', new.length = missing ∧ a.lines = got ++ new ∧
      w'.link.Behind sent (taken ++ new) met' := by
  induction missing generalizing w got taken met with
  | zero =>
    obtain ⟨rfl, rfl⟩ := Prod.mk.inj hread
    exact ⟨[], met, rfl, by simp, by simpa using h⟩
  | succ missing ih =>
    obtain ⟨answer, w₁, hline⟩ : ∃ x y, (Wire.connection b).readLine w = (x, y) := ⟨_, _, rfl⟩
    simp only [readLines, bind, StateT.bind, hline] at hread
    cases answer with
    | error e =>
      cases e
      all_goals
        obtain ⟨rfl, -⟩ := Prod.mk.inj hread
        cases ha
    | ok line =>
      obtain ⟨met₁, h₁⟩ := Wire.readLine_behind h hline
      obtain ⟨new, met', hlength, hlines, h'⟩ := ih h₁ hread
      refine ⟨line :: new, met', by simp [hlength], by simp [hlines], ?_⟩
      simpa using h'

theorem converse_behind (h : w.link.Behind sent taken met) (hline : isOneLine q.command)
    (hcount : q.count < 2 ^ 63)
    (hconverse : converse (Wire.connection b) q.command q.count w = (a, w')) (ha : a.error = none) :
    ∃ met', a.lines.length = q.count ∧ w'.link.Behind (sent ++ [q]) (taken ++ a.lines) met' := by
  obtain ⟨answer, w₁, hwrite⟩ :
    ∃ x y, (Wire.connection b).write (q.text ++ [lineFeed]) w = (x, y) := ⟨_, _, rfl⟩
  simp only [converse, bind, StateT.bind, hwrite] at hconverse
  cases answer with
  | error e =>
    obtain ⟨rfl, rfl⟩ := Prod.mk.inj hconverse
    cases ha
  | ok _ =>
    obtain ⟨met₁, h₁⟩ := Wire.write_behind h hline hcount hwrite
    obtain ⟨new, met', hlength, hlines, h'⟩ := readLines_behind h₁ hconverse ha
    rw [List.nil_append] at hlines
    exact ⟨met', by rw [hlines, hlength], by rwa [hlines]⟩

/-- A client that no command has failed has got all lines that it asked for. -/
def InSync (r : Remote (Wire σ)) (sent : List Request) (taken : List Bytes) : Prop :=
  r.failed = none → r.closing = none ∧ taken.length = (sent.map Request.count).sum ∧
    ∃ met, r.peer.link.Behind sent taken met

variable {r r' : Remote (Wire σ)}

/-- A command that is answered without an error was sent by a client in sync. -/
theorem exchange_behind (h : r.InSync sent taken) (hcount : q.count < 2 ^ 63)
    (hexchange : exchange (Wire.connection b) q.command q.count r = (a, r')) (ha : a.error = none) :
    isOneLine q.command ∧ r'.closing = none ∧
      taken.length = (sent.map Request.count).sum ∧ a.lines.length = q.count ∧
      ∃ met, r'.peer.link.Behind (sent ++ [q]) (taken ++ a.lines) met := by
  cases hline : isOneLine q.command with
  | false =>
    rw [exchange_invalid hline] at hexchange
    obtain ⟨rfl, rfl⟩ := Prod.mk.inj hexchange
    cases ha
  | true =>
    cases hfailed : r.failed with
    | some first =>
      rw [exchange_failed hline hfailed] at hexchange
      obtain ⟨rfl, rfl⟩ := Prod.mk.inj hexchange
      cases ha
    | none =>
      obtain ⟨hclosing, hlength, met, hbehind⟩ := h hfailed
      obtain ⟨x, w, hconverse⟩ :
        ∃ x w, converse (Wire.connection b) q.command q.count r.peer = (x, w) := ⟨_, _, rfl⟩
      rw [exchange_open hline hfailed hclosing, hconverse] at hexchange
      obtain ⟨rfl, rfl⟩ := Prod.mk.inj hexchange
      rw [if_neg (by simpa using ha)]
      obtain ⟨met', hnew, hbehind'⟩ := converse_behind hbehind hline hcount hconverse ha
      exact ⟨rfl, hclosing, hlength, hnew, met', hbehind'⟩

/-- The commands that are one line. -/
def oneLiners (calls : List Request) : List Request := calls.filter (isOneLine ·.command)

theorem InSync.exchange (h : r.InSync sent taken) (hcount : q.count < 2 ^ 63)
    (hexchange : exchange (Wire.connection b) q.command q.count r = (a, r')) :
    r'.InSync (sent ++ oneLiners [q]) (taken ++ a.lines) := by
  cases hline : isOneLine q.command with
  | false =>
    rw [exchange_invalid hline] at hexchange
    obtain ⟨rfl, rfl⟩ := Prod.mk.inj hexchange
    simpa [oneLiners, hline, Response.failed] using h
  | true =>
    intro hfailed
    have ha := error_eq_none hline hexchange hfailed
    obtain ⟨-, hclosing, htaken, hnew, hbehind⟩ := exchange_behind h hcount hexchange ha
    rw [show oneLiners [q] = [q] by simp [oneLiners, hline]]
    exact ⟨hclosing, by simp [htaken, hnew], hbehind⟩

theorem InSync.exchangeAll (h : r.InSync sent taken) {calls : List Request}
    (hcalls : ∀ q ∈ calls, q.count < 2 ^ 63) {rs : List Response}
    (hrun : (backend (Wire.connection b)).exchangeAll calls r = (rs, r')) :
    r'.InSync (sent ++ oneLiners calls) (taken ++ rs.flatMap Response.lines) := by
  induction calls generalizing r sent taken rs with
  | nil =>
    obtain ⟨rfl, rfl⟩ := Prod.mk.inj hrun
    rw [oneLiners, List.filter_nil, List.append_nil, List.flatMap_nil, List.append_nil]
    exact h
  | cons q calls ih =>
    obtain ⟨a, r₁, hexchange⟩ :
      ∃ a r₁, (backend (Wire.connection b)).exchange q.command q.count r = (a, r₁) := ⟨_, _, rfl⟩
    rw [List.forall_mem_cons] at hcalls
    rw [Backend.exchangeAll_cons hexchange] at hrun
    obtain ⟨rfl, hrest⟩ := Prod.mk.inj hrun
    have hsync := ih (h.exchange hcalls.1 hexchange) hcalls.2 (Prod.ext rfl hrest)
    rwa [List.append_assoc, oneLiners, oneLiners, ← List.filter_append, List.singleton_append,
      List.append_assoc] at hsync

theorem inSync_start (s : σ) (fates : Stream' Fate) :
    InSync { peer := ⟨{ simulator := (s, []) }, fates⟩ } [] [] :=
  fun _ => ⟨rfl, rfl, [], Link.Behind.start s⟩

/-- When a client gets a response without an error, the simulator has been given the commands that
the client sent, in order and each once, as far as they have come, and has met all but perhaps the
last of them. All lines that the client has got are the beginning of the bytes that the simulator gave
for those it met. If the last command calls for lines, and no line that the simulator gave has a line
feed in it, then all commands have come and were met, whatever else has happened, and the last answer
is the response. -/
theorem exchange_synchronous (b : Backend σ) (s : σ) (fates : Stream' Fate) (calls : List Request)
    (q : Request) (hcalls : ∀ q' ∈ calls, q'.count < 2 ^ 63) (hcount : q.count < 2 ^ 63)
    (earlier : List Response) (r r' : Remote (Wire σ)) (a : Response)
    (hrun : (backend (Wire.connection b)).exchangeAll calls
      { peer := ⟨{ simulator := (s, []) }, fates⟩ } = (earlier, r))
    (hexchange : exchange (Wire.connection b) q.command q.count r = (a, r'))
    (ha : a.error = none) :
    a.lines.length = q.count ∧
    r'.peer.link.simulator.2.map Prod.fst <+: calls.filter (isOneLine ·.command) ++ [q] ∧
    ∃ met, (∀ p ∈ met, p.1.MetBy p.2) ∧
      (r'.peer.link.simulator.2 = met ∨
        ∃ p, ¬ p.1.MetBy p.2 ∧ r'.peer.link.simulator.2 = met ++ [p]) ∧
      frame (earlier.flatMap Response.lines ++ a.lines) <+: frame (met.flatMap (·.2.lines)) ∧
      (0 < q.count → (∀ p ∈ met, ∀ line ∈ p.2.lines, lineFeed ∉ line) →
        ∃ log, r'.peer.link.simulator.2 = log ++ [(q, a)] ∧ met = log ++ [(q, a)] ∧
          log.map Prod.fst = calls.filter (isOneLine ·.command)) := by
  have hsync := (inSync_start s fates).exchangeAll hcalls hrun
  rw [List.nil_append, List.nil_append] at hsync
  obtain ⟨-, -, htaken, hnew, met, hbehind⟩ := exchange_behind hsync hcount hexchange ha
  refine ⟨hnew, hbehind.asked, met, hbehind.good, hbehind.log, ?_, fun hq hone => ?_⟩
  · exact (List.prefix_append ..).trans hbehind.given
  obtain ⟨hlog, hall, hgiven⟩ := hbehind.caughtUp (by simp [htaken, hnew]) hq hone
  obtain ⟨log, last, rfl, hbefore, hlast⟩ := List.map_eq_append_iff.mp hall
  obtain ⟨⟨_, x⟩, rfl, rfl⟩ := List.map_eq_singleton_iff.mp hlast
  obtain ⟨hgood, hx⟩ := List.forall_mem_append.mp hbehind.good
  rw [List.forall_mem_singleton] at hx
  -- what was taken for the last request is what it was answered with
  have hsame : a.lines = x.lines := by
    rw [List.flatMap_append] at hgiven
    have hlength : (earlier.flatMap Response.lines).length = (log.flatMap (·.2.lines)).length := by
      rw [Request.length_lines hgood, hbefore, htaken]
    simpa using (List.append_inj hgiven hlength).2
  have hax : a = x := by
    calc a = ⟨a.lines, a.error⟩ := rfl
      _ = ⟨x.lines, x.error⟩ := by rw [hsame, ha, hx.noError]
      _ = x := rfl
  subst hax
  exact ⟨log, hlog, rfl, hbefore⟩

/-! A client that sets a signal and goes on to the next command. Nothing happens before it waits for
the line of that one, then all at once. -/

namespace Hurried

def poke : Request := ⟨"poke x 1", 0⟩

def step : Request := ⟨"step 1", 1⟩

def willing : Scripted.Bench where
  replies := [⟨[], none, false⟩, ⟨["step took 1 ms"], none, false⟩]

def unwilling : Scripted.Bench where
  replies := [⟨[], some (.reported "boom"), false⟩]

def fates : Stream' Fate :=
  fun n => if n < 2 then {} else { events := [.arrive 99, .serve, .serve, .deliver 99] }

def poked : List Response × Remote (Wire Scripted.Bench) :=
  (backend (Wire.connection Scripted.backend)).exchangeAll [poke]
    { peer := ⟨{ simulator := (willing, []) }, fates⟩ }

def stepped : Response × Remote (Wire Scripted.Bench) :=
  exchange (Wire.connection Scripted.backend) step.command step.count poked.2

theorem response_stepped : stepped.1 = ⟨["step took 1 ms"], none⟩ := by decide +kernel

theorem lines_stepped :
    ∀ p ∈ stepped.2.peer.link.simulator.2, ∀ line ∈ p.2.lines, lineFeed ∉ line := by
  decide +kernel

end Hurried

theorem exchange_synchronous_hurried :
    ∃ log, Hurried.stepped.2.peer.link.simulator.2 =
        log ++ [(Hurried.step, ⟨["step took 1 ms"], none⟩)] ∧
      log.map Prod.fst = [Hurried.poke] := by
  obtain ⟨-, -, met, -, hmet, -, hcaught⟩ := exchange_synchronous Scripted.backend Hurried.willing
    Hurried.fates [Hurried.poke] Hurried.step (by decide) (by decide) _ _ _ _
    (Prod.mk.eta (p := Hurried.poked)).symm (Prod.mk.eta (p := Hurried.stepped)).symm
    (by rw [Hurried.response_stepped])
  have hone : ∀ p ∈ met, ∀ line ∈ p.2.lines, lineFeed ∉ line := by
    intro p hp
    apply Hurried.lines_stepped
    rcases hmet with hlog | ⟨last, -, hlog⟩ <;> simp [hlog, hp]
  obtain ⟨log, hlog, -, hcalls⟩ := hcaught (by decide) hone
  rw [Hurried.response_stepped] at hlog
  exact ⟨log, hlog, hcalls⟩

/-! A simulator that gives two lines for one, and fails the next command. -/

namespace Doubled

def bench : Scripted.Bench where
  replies := [⟨["x\ny"], none, false⟩, ⟨[], some (.reported "boom"), false⟩]

def peekA : Request := ⟨"peek a", 1⟩

def peekB : Request := ⟨"peek b", 1⟩

/-- All that can happen does. -/
def fates : Stream' Fate := Stream'.const { events := [.arrive 99, .serve, .deliver 99] }

def peeked : List Response × Remote (Wire Scripted.Bench) :=
  (backend (Wire.connection Scripted.backend)).exchangeAll [peekA, peekB]
    { peer := ⟨{ simulator := (bench, []) }, fates⟩ }

end Doubled

/-- A command that calls for no lines is taken for answered when it has been sent: at once, and if
the simulator fails it then, no error tells so. Nor does one if what is left of a line before is taken
for the answer, since the server sends a line with a line feed in it as it is. -/
theorem exchange_unanswered :
    (exchange (Wire.connection Scripted.backend) "poke x 1" 0
      { peer := ⟨{ simulator := (Hurried.unwilling, []) }, Hurried.fates⟩ }).1 = ⟨[], none⟩ ∧
    (exchange (Wire.connection Scripted.backend) "poke x 1" 0
      { peer := ⟨{ simulator := (Hurried.unwilling, []) },
          Hurried.fates⟩ }).2.peer.link.simulator.2 = [] ∧
    (exchange Scripted.Loopback.connection "poke x 1" 0
      { peer := { bench := Hurried.unwilling } }).1 = ⟨[], none⟩ ∧
    (Scripted.backend.exchange "poke x 1" 0 Hurried.unwilling).1 =
      ⟨[], some (.reported "boom")⟩ ∧
    Doubled.peeked.1 = [⟨["x"], none⟩, ⟨["y"], none⟩] ∧
    Doubled.peeked.2.peer.link.simulator.2 =
      [(Doubled.peekA, ⟨["x\ny"], none⟩), (Doubled.peekB, ⟨[], some (.reported "boom")⟩)] ∧
    (Server.session Scripted.backend
      { chunks := ["peek a|1\npeek b|1\n".toUTF8] } Doubled.bench).1 =
      (⟨"x\ny\n", none⟩, .simulatorFailure "peek b" (.reported "boom")) := by
  decide +kernel

end Remote

end GuardedRtl.Sim
