import GuardedRtl.Proofs.Link
import GuardedRtl.Sim.Scripted.Backend

/-! A remote simulator answers as the simulator itself would. Whatever happens on the link, it owes
its client the same lines (`Link.Owes.move`); a request adds the lines of its response
(`Link.Owes.send`), and reading takes the first (`Channel.readLine_owed`). Main statement:
`Remote.exchangeAll_transparent`. -/

namespace GuardedRtl.Sim

open Text (Bytes)

variable {σ : Type}

namespace Backend

/-- Exchanges commands one after the other. -/
def exchangeAll (b : Backend σ) : List Request → StateM σ (List Response)
  | [] => return []
  | q :: rest => do
    let r ← b.exchange q.command q.count
    return r :: (← b.exchangeAll rest)

/-- The same simulator, with a record of what it is asked. -/
def recorded (b : Backend σ) : Backend (σ × List (Bytes × ℕ)) where
  exchange command expected := fun (s, asked) =>
    let (r, s) := b.exchange command expected s
    (r, s, asked ++ [(command, expected)])
  close := fun (s, asked) =>
    let (answer, s) := b.close s
    (answer, s, asked)

variable {b : Backend σ} {q : Request} {r : Response} {s t : σ}

theorem exchangeAll_cons (h : b.exchange q.command q.count s = (r, t)) (calls : List Request) :
    b.exchangeAll (q :: calls) s = (r :: (b.exchangeAll calls t).1, (b.exchangeAll calls t).2) := by
  simp only [exchangeAll, bind, StateT.bind, h]
  rfl

theorem recorded_exchange (h : b.exchange q.command q.count s = (r, t))
    (asked : List (Bytes × ℕ)) :
    b.recorded.exchange q.command q.count (s, asked) =
      (r, t, asked ++ [(q.command, q.count)]) := by
  simp only [recorded, h]

end Backend

namespace Request

/-- What a client can send: one line, short enough for the server, with a count of 64 bits. -/
structure Sendable (q : Request) : Prop where
  oneLine : isOneLine q.command = true
  count_lt : q.count < 2 ^ 63
  short : q.text.length < maxLineSize

/-- The response is what was asked for. -/
structure AnsweredBy (q : Request) (r : Response) : Prop where
  noError : r.error = none
  length_eq : r.lines.length = q.count
  oneLine : ∀ line ∈ r.lines, lineFeed ∉ line

theorem AnsweredBy.eq {q : Request} {r : Response} (h : q.AnsweredBy r) : ⟨r.lines, none⟩ = r := by
  rw [← h.noError]

def asked (q : Request) : Bytes × ℕ := (q.command, q.count)

theorem notMem_text {q : Request} (h : isOneLine q.command) {b : UInt8}
    (hb : b = carriageReturn ∨ b = lineFeed) : b ∉ q.text := by
  intro hmem
  rcases List.mem_append.mp hmem with hmem | hmem
  · exact notMem_of_isOneLine h hb hmem
  · rcases List.mem_cons.mp hmem with hmem | hmem
    · rcases hb with rfl | rfl <;> exact absurd hmem (by decide)
    · have hdigit := isDigit_of_mem_count hmem
      rcases hb with rfl | rfl <;> exact absurd hdigit (by decide)

theorem Sendable.isLine {q : Request} (h : q.Sendable) : LineReader.IsLine maxLineSize q.text :=
  ⟨notMem_text h.oneLine (.inr rfl), h.short⟩

theorem isLine_texts {qs : List Request} (h : ∀ q ∈ qs, q.Sendable) :
    ∀ line ∈ qs.map text, LineReader.IsLine maxLineSize line := by
  intro line hline
  obtain ⟨q, hq, rfl⟩ := List.mem_map.mp hline
  exact (h q hq).isLine

/-- The server reads the line that the client sent. -/
theorem withoutReturn_text {q : Request} (h : isOneLine q.command) :
    withoutReturn q.text = q.text :=
  withoutReturn_of_notMem (notMem_text h (.inl rfl))

/-- The response is what the server lets through: no error, and as many lines as were asked for. -/
structure MetBy (q : Request) (r : Response) : Prop where
  noError : r.error = none
  length_eq : r.lines.length = q.count

instance (q : Request) (r : Response) : Decidable (q.MetBy r) :=
  decidable_of_iff (r.error = none ∧ r.lines.length = q.count)
    ⟨fun h => ⟨h.1, h.2⟩, fun h => ⟨h.noError, h.length_eq⟩⟩

/-- What is wrong with a response: its error, or else the number of its lines. -/
def failure (q : Request) (r : Response) : Error :=
  r.error.getD (.response q.command (.lineCount q.count r.lines.length))

end Request

variable {b : Backend σ}

namespace Server

variable {line : Bytes} {q : Request} {r : Response} {s t : σ}

theorem ask_run (h : b.exchange q.command q.count s = (r, t)) :
    (b.ask q.command q.count).run s =
      (if q.MetBy r then .ok r.lines else .error (q.failure r), t) := by
  have hlift : (liftM (b.exchange q.command q.count) : Session σ Response) s = (.ok r, t) := by
    change (Except.ok (b.exchange q.command q.count s).1, (b.exchange q.command q.count s).2) = _
    rw [h]
  obtain ⟨lines, _ | e⟩ := r
  all_goals
    simp only [Backend.ask, ExceptT.run, bind, ExceptT.bind, ExceptT.mk, StateT.bind, hlift,
      ExceptT.bindCont]
  · by_cases hcount : lines.length = q.count
    · rw [if_pos (by exact_mod_cast hcount), if_pos ⟨rfl, hcount⟩]
      rfl
    · rw [if_neg (by exact_mod_cast hcount), if_neg fun hmet => hcount hmet.length_eq]
      rfl
  · rw [if_neg fun hmet => Option.some_ne_none e hmet.noError]
    rfl

theorem respond_malformed {e : Error} (hline : Request.parse line = .error e) :
    respond b line s = (.error (.badRequest e), s) := by
  simp only [respond, hline]
  rfl

theorem respond_met (hline : Request.parse line = .ok q)
    (h : b.exchange q.command q.count s = (r, t)) (hr : q.MetBy r) :
    respond b line s = (.ok r.lines, t) := by
  simp only [respond, hline, bind, StateT.bind]
  rw [ask_run h, if_pos hr]
  rfl

theorem respond_failed (hline : Request.parse line = .ok q)
    (h : b.exchange q.command q.count s = (r, t)) (hr : ¬ q.MetBy r) :
    respond b line s = (.error (.simulatorFailure q.command (q.failure r)), t) := by
  simp only [respond, hline, bind, StateT.bind]
  rw [ask_run h, if_neg hr]
  rfl

theorem Output.write_unlimited {o : Output} (h : o.limit = none) (bs : Bytes) :
    o.write bs = .ok ⟨o.sent ++ bs, none⟩ := by
  obtain ⟨sent, limit⟩ := o
  cases h
  unfold write
  split_ifs with hempty
  · rw [hempty, List.append_nil]
  · rfl

theorem respond_text (hq : q.Sendable) (hr : q.AnsweredBy r)
    (h : b.exchange q.command q.count s = (r, t)) : respond b q.text s = (.ok r.lines, t) :=
  respond_met (Request.parse_text hq.count_lt) h ⟨hr.noError, hr.length_eq⟩

/-- A request that is answered leaves the others to be. -/
theorem respondAll_answered {lines : List Bytes} (h : respond b line s = (.ok lines, t))
    (rest : List Bytes) (sent : Bytes) :
    respondAll b (line :: rest) ⟨sent, none⟩ s =
      respondAll b rest ⟨sent ++ frame lines, none⟩ t := by
  simp only [respondAll, bind, StateT.bind, h, Output.write_unlimited (o := ⟨sent, none⟩) rfl]

theorem respondAll_ended {ending : Ending} (h : respond b line s = (.error ending, t))
    (rest : List Bytes) (out : Output) :
    respondAll b (line :: rest) out s = ((out, some ending), t) := by
  simp only [respondAll, bind, StateT.bind, h]
  rfl

end Server

/-- A simulator that is asked directly: the lines of its responses, and the state it ends in. -/
inductive Backend.Answers (b : Backend σ) : List Request → σ → List Bytes → σ → Prop
  | nil (s : σ) : b.Answers [] s [] s
  | cons {q : Request} {rest : List Request} {r : Response} {s s' t : σ} {more : List Bytes}
      (hr : q.AnsweredBy r) (hexchange : b.exchange q.command q.count s = (r, s'))
      (hrest : b.Answers rest s' more t) : b.Answers (q :: rest) s (r.lines ++ more) t

theorem Backend.Answers.snoc {todo : List Request} {q : Request} {r : Response} {s t t' : σ}
    {lines : List Bytes} (h : b.Answers todo s lines t) (hr : q.AnsweredBy r)
    (hexchange : b.exchange q.command q.count t = (r, t')) :
    b.Answers (todo ++ [q]) s (lines ++ r.lines) t' := by
  induction h with
  | nil s => simpa using Answers.cons hr hexchange (.nil t')
  | cons hr' hexchange' _ ih =>
    rw [List.append_assoc]
    exact .cons hr' hexchange' (ih hexchange)

theorem Backend.answers_exchangeAll {calls : List Request} {s : σ}
    (h : List.Forall₂ Request.AnsweredBy calls (b.exchangeAll calls s).1) :
    b.Answers calls s ((b.exchangeAll calls s).1.flatMap Response.lines)
      (b.exchangeAll calls s).2 := by
  induction calls generalizing s with
  | nil => exact .nil s
  | cons q calls ih =>
    obtain ⟨r, t, hexchange⟩ : ∃ r t, b.exchange q.command q.count s = (r, t) := ⟨_, _, rfl⟩
    rw [exchangeAll_cons hexchange] at h ⊢
    obtain ⟨hr, hrest⟩ := List.forall₂_cons.mp h
    exact .cons hr hexchange (ih hrest)

/-- The server answers requests with the lines that the simulator would have given directly. -/
theorem Server.respondAll_text {todo : List Request} {s t : σ} {lines : List Bytes}
    (htodo : ∀ q ∈ todo, q.Sendable) (h : b.Answers todo s lines t) (sent : Bytes) :
    Server.respondAll b (todo.map Request.text) ⟨sent, none⟩ s =
      ((⟨sent ++ frame lines, none⟩, none), t) := by
  induction h generalizing sent with
  | nil s => simp [Server.respondAll]; rfl
  | @cons q rest r s s' t more hr hexchange _ ih =>
    obtain ⟨hq, hrest⟩ := List.forall_mem_cons.mp htodo
    rw [List.map_cons, Server.respondAll_answered (Server.respond_text hq hr hexchange), ih hrest,
      frame_append, List.append_assoc]

namespace Link

/-- Requests that have not been answered are on their way to the server or wait there, and lines
that have not been read are on their way to the client or wait there. -/
structure Carries (l : Link σ) (todo : List Request) (unread : List Bytes) : Prop where
  isOpen : l.hungUp = false
  sendable : ∀ q ∈ todo, q.Sendable
  up : l.requests.Expects l.upstream (todo.map Request.text)
  oneLine : ∀ line ∈ unread, lineFeed ∉ line
  down : l.inbox ++ l.downstream = frame unread

/-- The lines that the client will read, and the state of the simulator when all is done. -/
def Owes (b : Backend σ) (l : Link σ) (owed : List Bytes) (t : σ) : Prop :=
  ∃ todo unread more, l.Carries todo unread ∧ b.Answers todo l.simulator more t ∧
    owed = unread ++ more

variable {l l' : Link σ} {owed : List Bytes} {t : σ}

theorem Owes.start (s : σ) : Owes b { simulator := s } [] s := by
  exact ⟨[], [], [], ⟨rfl, by simp, LineReader.expects_start [], by simp, rfl⟩, .nil s, rfl⟩

theorem Carries.arrive {todo : List Request} {unread : List Bytes} (h : l.Carries todo unread)
    (n : ℕ) : (l.arrive n).Carries todo unread :=
  ⟨h.isOpen, h.sendable, h.up.feed (Request.isLine_texts h.sendable) n, h.oneLine, h.down⟩

theorem Carries.deliver {todo : List Request} {unread : List Bytes} (h : l.Carries todo unread)
    (n : ℕ) : (l.deliver n).Carries todo unread := by
  refine ⟨h.isOpen, h.sendable, h.up, h.oneLine, ?_⟩
  simp only [Link.deliver, List.append_assoc, List.take_append_drop]
  exact h.down

/-- Answering a request moves its lines from the simulator to the link. -/
theorem Owes.serve (h : l.Owes b owed t) (hserve : l.serve b = some l') : l'.Owes b owed t := by
  obtain ⟨todo, unread, more, hcarries, hanswers, rfl⟩ := h
  obtain ⟨-, ⟨hlong, -⟩ | ⟨line, rest, hlines, rfl⟩⟩ := serve_cases hserve
  · -- the server hangs up only on a line that no client sends
    rw [hcarries.up.sound] at hlong
    cases hlong
  · obtain ⟨first, others, hfirst, rfl, hup⟩ := hcarries.up.take hlines
    cases hanswers with
    | nil => simp at hfirst
    | @cons q todo r _ s' _ more hr hexchange hrest =>
      obtain ⟨rfl, rfl⟩ := List.cons.inj hfirst
      have hq := hcarries.sendable q (by simp)
      have hrespond : Server.respondAll b [q.text] {} l.simulator =
          ((⟨frame r.lines, none⟩, none), s') := by
        have := Server.respondAll_text (by simpa using hq) (.cons hr hexchange (.nil s')) []
        rwa [List.append_nil, List.nil_append] at this
      have hread : (withoutReturn q.text).toByteArray.data.toList = q.text := by
        rw [List.toList_data_toByteArray, Request.withoutReturn_text hq.oneLine]
      rw [← hread] at hrespond
      rw [answer_eq hrespond]
      refine ⟨todo, unread ++ r.lines, more, ⟨rfl, ?_, hup, ?_, ?_⟩, hrest, by simp⟩
      · intro q' hq'
        exact hcarries.sendable q' (by simp [hq'])
      · intro line hline
        rcases List.mem_append.mp hline with hline | hline
        · exact hcarries.oneLine line hline
        · exact hr.oneLine line hline
      · simp only [← List.append_assoc, hcarries.down, frame_append]

theorem Owes.move (h : l.Owes b owed t) (hmove : l' ∈ l.moves b) : l'.Owes b owed t := by
  rcases mem_moves hmove with ⟨n, -, rfl⟩ | hserve | ⟨n, -, rfl⟩
  · obtain ⟨todo, unread, more, hcarries, hanswers, howed⟩ := h
    exact ⟨todo, unread, more, hcarries.arrive _, hanswers, howed⟩
  · exact h.serve hserve
  · obtain ⟨todo, unread, more, hcarries, hanswers, howed⟩ := h
    exact ⟨todo, unread, more, hcarries.deliver _, hanswers, howed⟩

/-- A request that is sent adds its response to what is owed. -/
theorem Owes.send {q : Request} {r : Response} {t' : σ} (h : l.Owes b owed t) (hq : q.Sendable)
    (hr : q.AnsweredBy r) (hexchange : b.exchange q.command q.count t = (r, t')) :
    Owes b { l with upstream := l.upstream ++ (q.text ++ [lineFeed]) } (owed ++ r.lines) t' := by
  obtain ⟨todo, unread, more, hcarries, hanswers, rfl⟩ := h
  refine ⟨todo ++ [q], unread, more ++ r.lines, ?_, hanswers.snoc hr hexchange, by simp⟩
  refine ⟨hcarries.isOpen, ?_, ?_, hcarries.oneLine, hcarries.down⟩
  · intro q' hq'
    rcases List.mem_append.mp hq' with hq' | hq'
    · exact hcarries.sendable q' hq'
    · rw [List.mem_singleton.mp hq']
      exact hq
  · have := hcarries.up.append [q.text]
    simpa using this

/-- Where nothing can happen any more, nothing is left to do, and all has reached the client. -/
theorem Carries.settled {todo : List Request} {unread : List Bytes} (h : l.Carries todo unread)
    (hsettled : l.moves b = []) : todo = [] ∧ l.downstream = [] := by
  simp only [moves, List.append_eq_nil_iff, List.map_eq_nil_iff, List.range_eq_nil,
    List.length_eq_zero_iff] at hsettled
  obtain ⟨⟨hup, hserve⟩, hdown⟩ := hsettled
  refine ⟨?_, hdown⟩
  have hexpects := h.up
  rw [hup] at hexpects
  have hnone : l.requests.lines.toList = [] := by
    by_contra hne
    obtain ⟨line, rest, hlines⟩ := List.exists_cons_of_ne_nil hne
    simp [serve, h.isOpen, hlines] at hserve
  simpa using hexpects.eq_nil hnone

theorem Owes.settled (h : l.Owes b [] t) (hsettled : l.moves b = []) : l.simulator = t := by
  obtain ⟨todo, unread, more, hcarries, hanswers, howed⟩ := h
  obtain ⟨rfl, -⟩ := hcarries.settled hsettled
  cases hanswers
  rfl

/-- The first line of what is owed is the first in the inbox, once there is one or none can come. -/
theorem Owes.first {line : Bytes} (h : l.Owes b (line :: owed) t)
    (hready : (Channel.takeLine l.inbox).isSome ∨ l.moves b = []) :
    ∃ rest, Channel.takeLine l.inbox = some (line, rest) ∧
      Owes b { l with inbox := rest } owed t := by
  obtain ⟨todo, unread, more, hcarries, hanswers, howed⟩ := h
  -- if nothing can happen, the whole of what is owed is there
  have hsome : (Channel.takeLine l.inbox).isSome := by
    rcases hready with hready | hsettled
    · exact hready
    · obtain ⟨rfl, hdown⟩ := hcarries.settled hsettled
      cases hanswers
      rw [List.append_nil] at howed
      have hinbox := hcarries.down
      rw [hdown, List.append_nil, ← howed, frame_cons] at hinbox
      have hline := hcarries.oneLine line (by simp [← howed])
      rw [hinbox, Channel.takeLine_append hline]
      rfl
  obtain ⟨⟨v, rest⟩, htake⟩ := Option.isSome_iff_exists.mp hsome
  obtain ⟨hinbox, hv⟩ := Channel.eq_append_of_takeLine htake
  have hdown := hcarries.down
  rw [hinbox, List.append_assoc, List.cons_append] at hdown
  cases unread with
  | nil => simp at hdown
  | cons first unread =>
    obtain ⟨rfl, rfl⟩ := List.cons.inj howed
    rw [frame_cons] at hdown
    have hline := hcarries.oneLine line (by simp)
    obtain ⟨rfl, hrest⟩ := firstLine_unique hv hline hdown
    refine ⟨rest, htake, todo, unread, more, ?_, hanswers, rfl⟩
    refine ⟨hcarries.isOpen, hcarries.sendable, hcarries.up, ?_, hrest⟩
    intro x hx
    exact hcarries.oneLine x (by simp [hx])

end Link

namespace Channel

variable {c : Channel σ} {owed : List Bytes} {t : σ}

theorem readLine_owed {line : Bytes} (h : c.link.Owes b (line :: owed) t) :
    ∃ c', readLine b c = (.ok line, c') ∧ c'.link.Owes b owed t := by
  obtain ⟨howes, hready⟩ := await_spec (fun _ h _ hmove => Link.Owes.move h hmove) h
  obtain ⟨rest, htake, hrest⟩ := howes.first hready
  rw [readLine_eq htake]
  exact ⟨_, rfl, hrest⟩

theorem write_owed {q : Request} {r : Response} {t' : σ} (h : c.link.Owes b owed t)
    (hq : q.Sendable) (hr : q.AnsweredBy r) (hexchange : b.exchange q.command q.count t = (r, t')) :
    ∃ c', write b (q.text ++ [lineFeed]) c = (.ok (), c') ∧ c'.link.Owes b (owed ++ r.lines) t' := by
  refine ⟨_, rfl, ?_⟩
  apply linger_induction (fun _ h _ hmove => Link.Owes.move h hmove)
  exact h.send hq hr hexchange

theorem settle_owed (h : c.link.Owes b [] t) : (c.settle b).link.simulator = t := by
  obtain ⟨howes, hready⟩ := advance_spec (fun _ h _ hmove => Link.Owes.move h hmove)
    (fun _ => false) h
  apply howes.settled
  simpa using hready

end Channel

/-- Whole requests are answered in one session, however their bytes are cut. -/
theorem Server.session_answers {calls : List Request} {chunks : List ByteArray} {s t : σ}
    {lines : List Bytes} (hcalls : ∀ q ∈ calls, q.Sendable) (h : b.Answers calls s lines t)
    (hchunks : chunks.flatMap (·.data.toList) = frame (calls.map Request.text)) :
    Server.session b { chunks } s = ((⟨frame lines, none⟩, .done), t) := by
  have htexts : (calls.map Request.text).map withoutReturn = calls.map Request.text := by
    rw [List.map_map]
    exact List.map_congr_left fun q hq => Request.withoutReturn_text (hcalls q hq).oneLine
  have hrespond := Server.respondAll_text hcalls h []
  rw [List.nil_append] at hrespond
  simp only [Server.session, readLines_frame (Request.isLine_texts hcalls) hchunks, htexts, bind,
    StateT.bind, hrespond]
  rfl

namespace Remote

variable {c : Channel σ} {t : σ}

theorem readLines_owed (command : Bytes) (expected : ℕ) {lines : List Bytes} (got : List Bytes)
    (h : c.link.Owes b lines t) :
    ∃ c', readLines (Channel.connection b) command expected lines.length got c =
        (⟨got ++ lines, none⟩, c') ∧ c'.link.Owes b [] t := by
  induction lines generalizing c got with
  | nil => exact ⟨c, by simp [readLines]; rfl, h⟩
  | cons line lines ih =>
    obtain ⟨c₁, hread, hrest⟩ := Channel.readLine_owed h
    obtain ⟨c₂, hlines, hdone⟩ := ih (got ++ [line]) hrest
    refine ⟨c₂, ?_, hdone⟩
    have hhead : (Channel.connection b).readLine c = (.ok line, c₁) := hread
    simp only [readLines, List.length_cons, bind, StateT.bind, hhead]
    rw [hlines]
    simp

theorem converse_owed {q : Request} {r : Response} {t' : σ} (h : c.link.Owes b [] t)
    (hq : q.Sendable) (hr : q.AnsweredBy r) (hexchange : b.exchange q.command q.count t = (r, t')) :
    ∃ c', converse (Channel.connection b) q.command q.count c = (r, c') ∧
      c'.link.Owes b [] t' := by
  obtain ⟨c₁, hwrite, howes⟩ := Channel.write_owed h hq hr hexchange
  rw [List.nil_append] at howes
  obtain ⟨c₂, hlines, hdone⟩ := readLines_owed q.command q.count [] howes
  refine ⟨c₂, ?_, hdone⟩
  have hhead : (Channel.connection b).write (q.text ++ [lineFeed]) c = (.ok (), c₁) := hwrite
  rw [hr.length_eq, List.nil_append] at hlines
  unfold converse
  simp only [bind, StateT.bind, hhead]
  rw [hlines, hr.eq]

theorem exchange_owed {r : Remote (Channel σ)} {q : Request} {a : Response} {t' : σ}
    (hopen : r.failed = none ∧ r.closing = none) (h : r.peer.link.Owes b [] t)
    (hq : q.Sendable) (ha : q.AnsweredBy a) (hexchange : b.exchange q.command q.count t = (a, t')) :
    ∃ c', (Remote.backend (Channel.connection b)).exchange q.command q.count r =
        (a, { r with peer := c' }) ∧ c'.link.Owes b [] t' := by
  obtain ⟨c', hconverse, hdone⟩ := converse_owed h hq ha hexchange
  refine ⟨c', ?_, hdone⟩
  simp only [Remote.backend, exchange, hq.oneLine, Bool.not_true, Bool.false_eq_true, if_false,
    bind, StateT.bind, get, getThe, MonadStateOf.get, StateT.get, pure, hopen, Option.isSome_none,
    onPeer, hconverse, ha.noError]
  rfl

theorem exchangeAll_owed {calls : List Request} {r : Remote (Channel σ)} {s : σ}
    (hcalls : ∀ q ∈ calls, q.Sendable)
    (hanswers : List.Forall₂ Request.AnsweredBy calls (b.exchangeAll calls s).1)
    (hopen : r.failed = none ∧ r.closing = none) (h : r.peer.link.Owes b [] s) :
    ∃ c', (Remote.backend (Channel.connection b)).exchangeAll calls r =
        ((b.exchangeAll calls s).1, { r with peer := c' }) ∧
      c'.link.Owes b [] (b.exchangeAll calls s).2 := by
  induction calls generalizing r s with
  | nil => exact ⟨r.peer, rfl, h⟩
  | cons q calls ih =>
    obtain ⟨a, t, hexchange⟩ : ∃ a t, b.exchange q.command q.count s = (a, t) := ⟨_, _, rfl⟩
    rw [Backend.exchangeAll_cons hexchange] at hanswers ⊢
    obtain ⟨ha, hrest⟩ := List.forall₂_cons.mp hanswers
    obtain ⟨c₁, hfirst, howes⟩ := exchange_owed hopen h (hcalls q (by simp)) ha hexchange
    obtain ⟨c₂, hothers, hdone⟩ := ih (r := { r with peer := c₁ })
      (fun q' hq' => hcalls q' (by simp [hq'])) hrest hopen howes
    refine ⟨c₂, ?_, hdone⟩
    rw [Backend.exchangeAll_cons hfirst, hothers]

end Remote

namespace Backend

/-- A record changes nothing but itself. -/
theorem exchangeAll_recorded (calls : List Request) (s : σ) (asked : List (Bytes × ℕ)) :
    b.recorded.exchangeAll calls (s, asked) =
      ((b.exchangeAll calls s).1, (b.exchangeAll calls s).2, asked ++ calls.map Request.asked) := by
  induction calls generalizing s asked with
  | nil =>
    rw [List.map_nil, List.append_nil]
    rfl
  | cons q calls ih =>
    obtain ⟨r, t, h⟩ : ∃ r t, b.exchange q.command q.count s = (r, t) := ⟨_, _, rfl⟩
    rw [exchangeAll_cons h, exchangeAll_cons (recorded_exchange h asked), ih]
    simp [Request.asked]

/-- A record ends with the requests that were still to be answered. -/
theorem Answers.recorded {todo : List Request} {s t : σ × List (Bytes × ℕ)} {lines : List Bytes}
    (h : b.recorded.Answers todo s lines t) : t.2 = s.2 ++ todo.map Request.asked := by
  induction h with
  | nil s => simp
  | @cons q rest r s s' t more hr hexchange hrest ih =>
    rw [recorded_exchange rfl] at hexchange
    obtain ⟨-, rfl⟩ := Prod.mk.inj hexchange
    rw [ih, List.append_assoc, List.map_cons, List.singleton_append]
    rfl

end Backend

/-- A client that makes calls over a network gets the responses that the simulator gives directly,
and stays connected. The simulator is asked for them and nothing else, in order, and has been asked
for all of them once nothing is on its way. The server does the same in one session with the bytes
of the requests, however they are cut. -/
theorem Remote.exchangeAll_transparent (b : Backend σ) (s : σ) (calls : List Request)
    (choices : Stream' ℕ) (hcalls : ∀ q ∈ calls, q.Sendable)
    (hanswers : List.Forall₂ Request.AnsweredBy calls (b.exchangeAll calls s).1) :
    (∃ c : Channel (σ × List (Bytes × ℕ)),
      (Remote.backend (Channel.connection b.recorded)).exchangeAll calls
          { peer := ⟨{ simulator := (s, []) }, choices⟩ } =
        ((b.exchangeAll calls s).1, { peer := c }) ∧
      c.link.simulator.2 <+: calls.map Request.asked ∧
      (c.settle b.recorded).link.simulator =
        ((b.exchangeAll calls s).2, calls.map Request.asked)) ∧
    ∀ chunks : List ByteArray,
      chunks.flatMap (·.data.toList) = frame (calls.map Request.text) →
      Server.session b.recorded { chunks } (s, []) =
        ((⟨frame ((b.exchangeAll calls s).1.flatMap Response.lines), none⟩, .done),
          (b.exchangeAll calls s).2, calls.map Request.asked) := by
  have hrecorded := Backend.exchangeAll_recorded (b := b) calls s []
  rw [List.nil_append] at hrecorded
  have hsame : List.Forall₂ Request.AnsweredBy calls (b.recorded.exchangeAll calls (s, [])).1 := by
    rw [hrecorded]
    exact hanswers
  refine ⟨?_, fun chunks hchunks => ?_⟩
  · obtain ⟨c, hrun, howes⟩ := exchangeAll_owed
      (r := { peer := ⟨{ simulator := (s, []) }, choices⟩ }) hcalls hsame ⟨rfl, rfl⟩
      (Link.Owes.start (s, []))
    rw [hrecorded] at hrun howes
    refine ⟨c, hrun, ?_, Channel.settle_owed howes⟩
    obtain ⟨todo, unread, more, hcarries, hdirect, -⟩ := howes
    exact ⟨todo.map Request.asked, hdirect.recorded.symm⟩
  · have hsession := Server.session_answers hcalls (Backend.answers_exchangeAll hsame) hchunks
    rwa [hrecorded] at hsession

/-! Commands with bars or without any text, answers with a carriage return or without any text, and
a network on which nothing happens before the client waits. -/

namespace Chatty

def bench : Scripted.Bench where
  replies := [⟨["\r"], none, false⟩, ⟨[], none, false⟩, ⟨["", "7|1"], none, false⟩]

def calls : List Request := [⟨"", 1⟩, ⟨"poke a|b 1", 0⟩, ⟨"peek x|2", 2⟩]

theorem sendable : ∀ q ∈ calls, q.Sendable := by
  intro q hq
  simp only [calls, List.mem_cons, List.not_mem_nil, or_false] at hq
  rcases hq with rfl | rfl | rfl
  all_goals exact ⟨by decide, by decide, by decide⟩

end Chatty

theorem Remote.exchangeAll_transparent_chatty :
    ((Remote.backend (Channel.connection Scripted.backend.recorded)).exchangeAll Chatty.calls
      { peer := ⟨{ simulator := (Chatty.bench, []) }, Stream'.const 0⟩ }).1 =
      [⟨["\r"], none⟩, ⟨[], none⟩, ⟨["", "7|1"], none⟩] := by
  have hdirect : (Scripted.backend.exchangeAll Chatty.calls Chatty.bench).1 =
      [⟨["\r"], none⟩, ⟨[], none⟩, ⟨["", "7|1"], none⟩] := rfl
  have hanswers : List.Forall₂ Request.AnsweredBy Chatty.calls
      (Scripted.backend.exchangeAll Chatty.calls Chatty.bench).1 := by
    rw [hdirect]
    refine .cons ?_ (.cons ?_ (.cons ?_ .nil))
    all_goals exact ⟨rfl, rfl, by decide⟩
  obtain ⟨⟨c, hrun, -, -⟩, -⟩ := Remote.exchangeAll_transparent Scripted.backend Chatty.bench
    Chatty.calls (Stream'.const 0) Chatty.sendable hanswers
  rw [hrun, hdirect]

end GuardedRtl.Sim
