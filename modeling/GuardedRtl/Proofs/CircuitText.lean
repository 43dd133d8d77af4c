import GuardedRtl.Proofs.Glyphs
import GuardedRtl.Proofs.Language
import GuardedRtl.Proofs.Legible

/-! Circuits from their text. A line of a module is told by its first word and what follows it,
`Line.Spelled.text_inj`; a text without newlines inside its names gives back its lines; so two legible
circuits with one text are one circuit, but for the bytes of formats that are not those of any
character, `Circuit.print_inj`. -/

namespace GuardedRtl.Rtl

open Text (Bytes bytes decode)

/-! ### What is written of a circuit

A format is written as the text in it. Bytes that are not those of any character are written as the
replacement character, all alike. -/

/-- The statement with the format that is read in its text. -/
def Stmt.decoded : Stmt → Stmt
  | .printf clock condition format args => .printf clock condition (bytes (decode format)) args
  | s => s

def Module.decoded (m : Module) : Module := { m with statements := m.statements.map Stmt.decoded }

def Circuit.decoded (c : Circuit) : Circuit := { c with modules := c.modules.map Module.decoded }

theorem Stmt.text_decoded (s : Stmt) : s.decoded.text = s.text := by
  cases s with
  | printf clock condition format args =>
    rw [Stmt.decoded, Stmt.text, Stmt.text, formatText_congr (Text.decode_bytes (decode format))]
  | _ => rfl

theorem Module.text_decoded (m : Module) : m.decoded.text = m.text := by
  simp [Module.text, Module.lines, Module.decoded, Function.comp_def, Stmt.text_decoded]

theorem Circuit.text_decoded (c : Circuit) : c.decoded.text = c.text := by
  simp [Circuit.text, Circuit.decoded, Function.comp_def, Module.text_decoded]

/-- Whether all formats in the circuit are texts. -/
def Circuit.HasTextFormats (c : Circuit) : Prop :=
  ∀ m ∈ c.modules, ∀ clock condition format args,
    .printf clock condition format args ∈ m.statements → ∃ s, format = bytes s

theorem Circuit.HasTextFormats.decoded_eq {c : Circuit} (h : c.HasTextFormats) : c.decoded = c := by
  have hmodule : ∀ m ∈ c.modules, m.decoded = m := by
    intro m hm
    have hstatements : m.statements.map Stmt.decoded = m.statements := by
      refine List.map_congr_left (g := id) (fun s hs => ?_) |>.trans (List.map_id _)
      cases s with
      | printf clock condition format args =>
        obtain ⟨f, rfl⟩ := h m hm clock condition format args hs
        rw [Stmt.decoded, Text.decode_bytes, id]
      | _ => rfl
    rw [Module.decoded, hstatements]
  rw [Circuit.decoded, List.map_congr_left (g := id) hmodule, List.map_id]

/-! ### Texts on one line -/

/-- Whether no name in the trees has a newline in it. -/
def NamesOnOneLine (ts : List Tree) : Prop :=
  ∀ n ∈ Tree.nodesOf ts, ∀ x ∈ n.name?, OnOneLine x

theorem Legible.namesOnOneLine {ts : List Tree} (h : Legible ts) : NamesOnOneLine ts := by
  intro n hn x hx hline
  have := (isIdentifier_chars (h.2 n hn x hx)).2 _ hline
  simp at this

theorem namesOnOneLine_cons {n : Node} {cs ts : List Tree} :
    NamesOnOneLine (.node n cs :: ts) ↔
      (∀ x ∈ n.name?, OnOneLine x) ∧ NamesOnOneLine cs ∧ NamesOnOneLine ts := by
  simp [NamesOnOneLine, or_imp, forall_and]

theorem namesOnOneLine_append {ts us : List Tree} :
    NamesOnOneLine (ts ++ us) ↔ NamesOnOneLine ts ∧ NamesOnOneLine us := by
  simp [NamesOnOneLine, or_imp, forall_and]

theorem namesOnOneLine_flatMap {α : Type} {g : α → List Tree} {xs : List α} :
    NamesOnOneLine (xs.flatMap g) ↔ ∀ x ∈ xs, NamesOnOneLine (g x) := by
  induction xs with
  | nil => simp [NamesOnOneLine]
  | cons x xs ih => simp [namesOnOneLine_append, ih]

theorem namesOnOneLine_map {α : Type} {g : α → Tree} {xs : List α} :
    NamesOnOneLine (xs.map g) ↔ ∀ x ∈ xs, NamesOnOneLine [g x] := by
  rw [List.map_eq_flatMap, namesOnOneLine_flatMap]

theorem onOneLine_unnamed {family : String} (h : OnOneLine family) (code : Int64) :
    OnOneLine (unnamed family code) := by
  simp only [unnamed, onOneLine_append]
  exact ⟨⟨⟨h, by decide⟩, onOneLine_decimal code⟩, by decide⟩

theorem onOneLine_widthText {name : String} (h : OnOneLine name) (width : Int64) :
    OnOneLine (widthText name width) := by
  unfold widthText
  split_ifs
  · exact h
  · simp only [onOneLine_append]
    exact ⟨⟨⟨h, by decide⟩, onOneLine_decimal width⟩, by decide⟩

mutual

theorem Ty.onOneLine_text (t : Ty) (h : NamesOnOneLine t.trees) : OnOneLine t.text := by
  cases t with
  | absent => decide
  | uint width => exact onOneLine_widthText (by decide) width
  | sint width => exact onOneLine_widthText (by decide) width
  | clock => decide
  | vector elem count =>
    have helem := Ty.onOneLine_text elem (namesOnOneLine_cons.mp h).2.1
    simp only [Ty.text, onOneLine_append]
    exact ⟨⟨⟨helem, by decide⟩, onOneLine_decimal count⟩, by decide⟩
  | bundle fs =>
    have hfields := Field.onOneLine_texts fs (namesOnOneLine_cons.mp h).2.1
    simp only [Ty.text, onOneLine_append]
    exact ⟨⟨by decide, onOneLine_commaSeparated hfields⟩, by decide⟩
  | foreign kind => exact (by decide : OnOneLine "")
termination_by structural t

theorem Field.onOneLine_texts (fs : List Field) (h : NamesOnOneLine (Field.trees fs)) :
    ∀ x ∈ Field.texts fs, OnOneLine x := by
  cases fs with
  | nil => simp [Field.texts]
  | cons f fs =>
    obtain ⟨name, type⟩ := f
    obtain ⟨hname, htype, hrest⟩ := namesOnOneLine_cons.mp h
    have hfs := Field.onOneLine_texts fs hrest
    have hfield : OnOneLine (name ++ ": " ++ type.text) := by
      simp only [onOneLine_append]
      exact ⟨⟨hname name rfl, by decide⟩, Ty.onOneLine_text type htype⟩
    intro x hx
    rcases List.mem_cons.mp hx with rfl | hx
    · exact hfield
    · exact hfs x hx
termination_by structural fs

end

theorem BinaryOp.onOneLine_keyword (op : BinaryOp) : OnOneLine op.keyword := by
  cases op with
  | unknown code => exact onOneLine_unnamed (by decide) code
  | _ => decide

theorem CompareOp.onOneLine_keyword (op : CompareOp) : OnOneLine op.keyword := by
  cases op with
  | unknown code => exact onOneLine_unnamed (by decide) code
  | _ => decide

theorem UnaryOp.onOneLine_keyword (op : UnaryOp) : OnOneLine op.keyword := by
  cases op with
  | unknown code => exact onOneLine_unnamed (by decide) code
  | _ => decide

theorem Direction.onOneLine_keyword (dir : Direction) : OnOneLine dir.keyword := by
  cases dir with
  | unknown code => exact onOneLine_unnamed (by decide) code
  | _ => decide

theorem Expr.onOneLine_text (e : Expr) (h : NamesOnOneLine e.trees) : OnOneLine e.text := by
  induction e with
  | absent => decide
  | leaf l => exact (by decide : OnOneLine "")
  | ref x => exact (namesOnOneLine_cons.mp h).1 x rfl
  | literal v t =>
    have ht := t.onOneLine_text (namesOnOneLine_cons.mp h).2.1
    rw [Expr.literal_text]
    exact onOneLine_callText ht (by simp [onOneLine_decimal])
  | mux sel a b ihsel iha ihb =>
    have hoperands := (namesOnOneLine_cons.mp h).2.1
    simp only [namesOnOneLine_append] at hoperands
    refine onOneLine_callText (by decide) ?_
    simp [ihsel hoperands.1.1, iha hoperands.1.2, ihb hoperands.2]
  | validIf valid a ihvalid iha =>
    have hoperands := namesOnOneLine_append.mp (namesOnOneLine_cons.mp h).2.1
    refine onOneLine_callText (by decide) ?_
    simp [ihvalid hoperands.1, iha hoperands.2]
  | binary op a b iha ihb =>
    have hoperands := namesOnOneLine_append.mp (namesOnOneLine_cons.mp h).2.1
    refine onOneLine_callText op.onOneLine_keyword ?_
    simp [iha hoperands.1, ihb hoperands.2]
  | compare op a b iha ihb =>
    have hoperands := namesOnOneLine_append.mp (namesOnOneLine_cons.mp h).2.1
    refine onOneLine_callText op.onOneLine_keyword ?_
    simp [iha hoperands.1, ihb hoperands.2]
  | unary op a iha =>
    refine onOneLine_callText op.onOneLine_keyword ?_
    simp [iha (namesOnOneLine_cons.mp h).2.1]
  | shiftLeft a places amount iha ihamount =>
    have hoperands := namesOnOneLine_append.mp (namesOnOneLine_cons.mp h).2.1
    unfold Expr.text
    split_ifs
    · refine onOneLine_callText (by decide) ?_
      simp [iha hoperands.1, ihamount hoperands.2]
    · refine onOneLine_callText (by decide) ?_
      simp [iha hoperands.1, onOneLine_decimal]
  | shiftRight a places amount iha ihamount =>
    have hoperands := namesOnOneLine_append.mp (namesOnOneLine_cons.mp h).2.1
    unfold Expr.text
    split_ifs
    · refine onOneLine_callText (by decide) ?_
      simp [iha hoperands.1, ihamount hoperands.2]
    · refine onOneLine_callText (by decide) ?_
      simp [iha hoperands.1, onOneLine_decimal]
  | pad a width iha =>
    refine onOneLine_callText (by decide) ?_
    simp [iha (namesOnOneLine_cons.mp h).2.1, onOneLine_decimal]
  | bits a hi lo iha =>
    refine onOneLine_callText (by decide) ?_
    simp [iha (namesOnOneLine_cons.mp h).2.1, onOneLine_decimal]
  | head a count iha =>
    refine onOneLine_callText (by decide) ?_
    simp [iha (namesOnOneLine_cons.mp h).2.1, onOneLine_decimal]
  | tail a count iha =>
    refine onOneLine_callText (by decide) ?_
    simp [iha (namesOnOneLine_cons.mp h).2.1, onOneLine_decimal]

theorem Reset.onOneLine_text {r : Reset} (h : NamesOnOneLine [r.tree]) : OnOneLine r.text := by
  have hoperands := namesOnOneLine_append.mp (namesOnOneLine_cons.mp h).2.1
  unfold Reset.text
  simp only [onOneLine_append]
  exact ⟨⟨⟨⟨by decide, r.enable.onOneLine_text hoperands.1⟩, by decide⟩,
    r.value.onOneLine_text hoperands.2⟩, by decide⟩

theorem Stmt.onOneLine_text (s : Stmt) (h : NamesOnOneLine s.trees) : OnOneLine s.text := by
  cases s with
  | absent => decide
  | foreign kind => exact (by decide : OnOneLine "")
  | connect lhs rhs =>
    have hparts := namesOnOneLine_append.mp (namesOnOneLine_cons.mp h).2.1
    have hlhs : OnOneLine lhs := (Expr.ref lhs).onOneLine_text hparts.1
    simp only [Stmt.text, onOneLine_append]
    exact ⟨⟨hlhs, by decide⟩, rhs.onOneLine_text hparts.2⟩
  | register name type clock reset =>
    obtain ⟨hname, hparts, -⟩ := namesOnOneLine_cons.mp h
    simp only [namesOnOneLine_append] at hparts
    have hreset : OnOneLine ((reset.map Reset.text).getD "") := by
      cases reset with
      | none => decide
      | some r => exact Reset.onOneLine_text hparts.2
    simp only [Stmt.text, onOneLine_append]
    exact ⟨⟨⟨⟨⟨⟨by decide, hname name rfl⟩, by decide⟩, type.onOneLine_text hparts.1.1⟩, by decide⟩,
      clock.onOneLine_text hparts.1.2⟩, hreset⟩
  | wire name type =>
    obtain ⟨hname, htype, -⟩ := namesOnOneLine_cons.mp h
    simp only [Stmt.text, onOneLine_append]
    exact ⟨⟨⟨by decide, hname name rfl⟩, by decide⟩, type.onOneLine_text htype⟩
  | printf clock condition format args =>
    have hparts := (namesOnOneLine_cons.mp h).2.1
    simp only [namesOnOneLine_append, namesOnOneLine_flatMap] at hparts
    refine onOneLine_callText (by decide) ?_
    simp only [List.mem_cons, List.mem_map]
    rintro x (rfl | rfl | rfl | ⟨e, he, rfl⟩)
    · exact clock.onOneLine_text hparts.1.1
    · exact condition.onOneLine_text hparts.1.2
    · exact onOneLine_format format
    · exact e.onOneLine_text (hparts.2 e he)
  | stop clock condition exitCode =>
    have hparts := namesOnOneLine_append.mp (namesOnOneLine_cons.mp h).2.1
    refine onOneLine_callText (by decide) ?_
    simp [clock.onOneLine_text hparts.1, condition.onOneLine_text hparts.2, onOneLine_decimal]

theorem Port.onOneLine_text (p : Port) (h : NamesOnOneLine [p.tree]) : OnOneLine p.text := by
  obtain ⟨hname, htype, -⟩ := namesOnOneLine_cons.mp h
  simp only [Port.text, onOneLine_append]
  exact ⟨⟨⟨⟨p.dir.onOneLine_keyword, by decide⟩, hname p.name rfl⟩, by decide⟩,
    p.type.onOneLine_text htype⟩

/-! ### Lines of a module -/

/-- A port or a statement. -/
inductive Line where
  | port (p : Port)
  | stmt (s : Stmt)

/-- How a line goes on after its first word. -/
inductive LineKind where
  | call | connection | declaration
  deriving DecidableEq

def LineKind.of : List Char → LineKind
  | '(' :: _ => .call
  | ' ' :: '<' :: _ => .connection
  | _ => .declaration

namespace Line

def text : Line → String
  | .port p => p.text
  | .stmt s => s.text

def trees : Line → List Tree
  | .port p => [p.tree]
  | .stmt s => s.trees

def isPresent : Line → Bool
  | .port _ => true
  | .stmt s => s.isPresent

def port? : Line → Option Port
  | .port p => some p
  | .stmt _ => none

def stmt? : Line → Option Stmt
  | .port _ => none
  | .stmt s => some s

def decoded : Line → Line
  | .port p => .port p
  | .stmt s => .stmt s.decoded

def kind : Line → LineKind
  | .stmt (.connect _ _) => .connection
  | .stmt (.printf _ _ _ _) | .stmt (.stop _ _ _) => .call
  | _ => .declaration

/-- The first word of a line. -/
def word : Line → String
  | .port p => p.dir.keyword
  | .stmt (.connect lhs _) => lhs
  | .stmt (.register _ _ _ _) => "reg"
  | .stmt (.wire _ _) => "wire"
  | .stmt (.printf _ _ _ _) => "printf"
  | .stmt (.stop _ _ _) => "stop"
  | _ => ""

/-- What follows the first word of a line. -/
def rest : Line → List Char
  | .port p => ' ' :: (p.name.toList ++ ' ' :: ':' :: ' ' :: p.type.text.toList)
  | .stmt (.connect _ rhs) => ' ' :: '<' :: '=' :: ' ' :: rhs.text.toList
  | .stmt (.register name type clock reset) =>
    ' ' :: (name.toList ++ ' ' :: ':' :: ' ' :: (type.text.toList ++
      ',' :: ' ' :: (clock.text.toList ++ ((reset.map Reset.text).getD "").toList)))
  | .stmt (.wire name type) => ' ' :: (name.toList ++ ':' :: ' ' :: type.text.toList)
  | .stmt (.printf clock condition format args) =>
    '(' :: ((commaSeparated
      (clock.text :: condition.text :: formatText format :: args.map Expr.text)).toList ++ [')'])
  | .stmt (.stop clock condition exitCode) =>
    '(' :: ((commaSeparated [clock.text, condition.text, decimal exitCode]).toList ++ [')'])
  | _ => []

theorem toList_text (l : Line) : l.text.toList = l.word.toList ++ l.rest := by
  cases l with
  | port p => simp [text, word, rest, Port.text]
  | stmt s => cases s <;> simp [text, word, rest, Stmt.text, callText]

/-- Whether all parts of the line are legible. -/
def Spelled : Line → Prop
  | .port p => p.dir.isKnown ∧ isIdentifier p.name ∧ p.type.IsLegible
  | .stmt (.connect lhs rhs) => isIdentifier lhs ∧ rhs.IsLegible
  | .stmt (.register name type clock reset) =>
    isIdentifier name ∧ type.IsLegible ∧ clock.IsLegible ∧
      ∀ r ∈ reset, r.enable.IsLegible ∧ r.value.IsLegible
  | .stmt (.wire name type) => isIdentifier name ∧ type.IsLegible
  | .stmt (.printf clock condition _ args) =>
    clock.IsLegible ∧ condition.IsLegible ∧ ∀ e ∈ args, e.IsLegible
  | .stmt (.stop clock condition _) => clock.IsLegible ∧ condition.IsLegible
  | _ => False

theorem port_spelled {p : Port} (h : Legible [p.tree]) : (Line.port p).Spelled := by
  obtain ⟨⟨hself, -, hname⟩, htype⟩ := legible_singleton.mp h
  obtain ⟨-, -, hself⟩ := bind_eq_ok.mp hself
  obtain ⟨_, hpresent, hself⟩ := bind_eq_ok.mp hself
  refine ⟨by simpa using hself, hname p.name rfl, ?_, htype⟩
  simpa [requireType] using hpresent

theorem stmt_spelled {s : Stmt} (hpresent : s.isPresent) (h : Legible s.trees) :
    (Line.stmt s).Spelled := by
  cases s with
  | absent => simp [Stmt.isPresent] at hpresent
  | foreign kind => cases (legible_singleton.mp h).1.1
  | connect lhs rhs =>
    obtain ⟨⟨hself, -, -⟩, hparts⟩ := legible_singleton.mp h
    obtain ⟨hlhs, hrhs⟩ := legible_append.mp hparts
    have hname := (legible_singleton.mp hlhs).1.2.2 lhs rfl
    have hpresent : rhs.isPresent := by
      simp only [Node.checkSelf, Stmt.checkSelf] at hself
      split_ifs at hself
      simpa [requireOperands_ok] using hself
    exact ⟨hname, hpresent, hrhs⟩
  | register name type clock reset =>
    obtain ⟨⟨hself, -, hname⟩, hparts⟩ := legible_singleton.mp h
    simp only [legible_append] at hparts
    obtain ⟨-, -, hself⟩ := bind_eq_ok.mp hself
    obtain ⟨_, htype, hclock⟩ := bind_eq_ok.mp hself
    refine ⟨hname name rfl, ⟨by simpa [requireType] using htype, hparts.1.1⟩,
      ⟨by simpa [requireOperands_ok] using hclock, hparts.1.2⟩, ?_⟩
    rintro r rfl
    obtain ⟨⟨hself, -, -⟩, hoperands⟩ := legible_singleton.mp hparts.2
    have hpresent : r.enable.isPresent ∧ r.value.isPresent := by
      simpa [requireOperands_ok, Node.checkSelf] using hself
    obtain ⟨henable, hvalue⟩ := legible_append.mp hoperands
    exact ⟨⟨hpresent.1, henable⟩, hpresent.2, hvalue⟩
  | wire name type =>
    obtain ⟨⟨hself, -, hname⟩, htype⟩ := legible_singleton.mp h
    obtain ⟨-, -, hpresent⟩ := bind_eq_ok.mp hself
    exact ⟨hname name rfl, by simpa [requireType] using hpresent, htype⟩
  | printf clock condition format args =>
    obtain ⟨⟨hself, -, -⟩, hparts⟩ := legible_singleton.mp h
    simp only [legible_append, legible_flatMap] at hparts
    obtain ⟨hargs, hoperands⟩ := ite_error_ok.mp hself
    have hpresent : clock.isPresent ∧ condition.isPresent := by
      simpa [requireOperands_ok] using hoperands
    rw [List.all_eq_true] at hargs
    exact ⟨⟨hpresent.1, hparts.1.1⟩, ⟨hpresent.2, hparts.1.2⟩,
      fun e he => ⟨hargs e he, hparts.2 e he⟩⟩
  | stop clock condition exitCode =>
    obtain ⟨⟨hself, -, -⟩, hparts⟩ := legible_singleton.mp h
    have hpresent : clock.isPresent ∧ condition.isPresent := by
      simpa [requireOperands_ok, Node.checkSelf, Stmt.checkSelf] using hself
    obtain ⟨hclock, hcondition⟩ := legible_append.mp hparts
    exact ⟨⟨hpresent.1, hclock⟩, hpresent.2, hcondition⟩

theorem Spelled.isWord {l : Line} (h : l.Spelled) : IsWord l.word.toList := by
  cases l with
  | port p =>
    obtain ⟨hdir, -⟩ := h
    change IsWord p.dir.keyword.toList
    cases hd : p.dir with
    | input => decide
    | output => decide
    | unknown code => simp [hd, Direction.isKnown] at hdir
  | stmt s =>
    cases s with
    | connect lhs rhs => exact isWord_identifier h.1
    | absent => cases h
    | foreign kind => cases h
    | _ => simp only [word]; decide

/-- An identifier after a blank makes a declaration. -/
theorem kind_declaration {x : String} (hx : isIdentifier x) (r : List Char) :
    LineKind.of (' ' :: (x.toList ++ r)) = .declaration := by
  obtain ⟨hne, hchars⟩ := isIdentifier_chars hx
  obtain ⟨c, cs, hc⟩ := List.exists_cons_of_ne_nil hne
  have hfirst := hchars c (by simp [hc])
  have hangle : c ≠ '<' := by
    rintro rfl
    simp at hfirst
  rw [hc, List.cons_append]
  unfold LineKind.of
  split
  · simp_all
  · simp_all
  · rfl

theorem Spelled.kind_rest {l : Line} (h : l.Spelled) : LineKind.of l.rest = l.kind := by
  cases l with
  | port p => exact kind_declaration h.2.1 _
  | stmt s =>
    cases s with
    | register name type clock reset => exact kind_declaration h.1 _
    | wire name type => exact kind_declaration h.1 _
    | absent => cases h
    | foreign kind => cases h
    | _ => rfl

/-- A first word ends at a blank or a parenthesis. -/
theorem head_rest (l : Line) : ∀ c ∈ l.rest.head?, isMark c ∨ c = '(' := by
  cases l with
  | port p => simp [rest, isMark]
  | stmt s => cases s <;> simp [rest, isMark]

/-- The first word of a line, what kind of line it is and how it goes on. -/
theorem Spelled.parts_eq {l m : Line} (hl : l.Spelled) (hm : m.Spelled) (h : l.text = m.text) :
    l.word = m.word ∧ l.kind = m.kind ∧ l.rest = m.rest := by
  have htexts := congrArg String.toList h
  rw [toList_text, toList_text] at htexts
  obtain ⟨hword, hrest⟩ := word_unique hl.isWord hm.isWord l.head_rest m.head_rest htexts
  refine ⟨String.toList_inj.mp hword, ?_, hrest⟩
  rw [← hl.kind_rest, ← hm.kind_rest, hrest]

theorem port_inj {p q : Port} (hp : (Line.port p).Spelled) (hq : (Line.port q).Spelled)
    (hword : p.dir.keyword = q.dir.keyword) (hrest : (Line.port p).rest = (Line.port q).rest) :
    p = q := by
  obtain ⟨hpdir, hpname, hptype⟩ := hp
  obtain ⟨hqdir, hqname, hqtype⟩ := hq
  have hdir : p.dir = q.dir := by
    cases hp : p.dir <;> cases hq : q.dir <;> simp_all [Direction.keyword, Direction.isKnown]
  obtain ⟨hname, htypes⟩ := identifier_unique hpname hqname (by simp) (by simp)
    (List.cons_injective hrest)
  have htype := (Ty.readsBack hptype hqtype).eq_of_text (by simpa using htypes)
  cases p
  cases q
  simp_all

theorem reset_inj {a b : Option Reset} (ha : ∀ r ∈ a, r.enable.IsLegible ∧ r.value.IsLegible)
    (hb : ∀ r ∈ b, r.enable.IsLegible ∧ r.value.IsLegible)
    (h : ((a.map Reset.text).getD "").toList = ((b.map Reset.text).getD "").toList) : a = b := by
  have htext (r : Reset) : r.text.toList = " with: (reset => (".toList ++
      (r.enable.text.toList ++ ',' :: ' ' :: (r.value.text.toList ++ [')', ')'])) := by
    unfold Reset.text
    simp only [String.toList_append, List.append_assoc]
    rfl
  cases a with
  | none =>
    cases b with
    | none => rfl
    | some r => simp [htext] at h
  | some r =>
    cases b with
    | none => simp [htext] at h
    | some q =>
      obtain ⟨hrenable, hrvalue⟩ := ha r rfl
      obtain ⟨hqenable, hqvalue⟩ := hb q rfl
      simp only [Option.map_some, Option.getD_some, htext, List.append_cancel_left_eq] at h
      obtain ⟨henable, hrest⟩ := Expr.readsBack hrenable hqenable _ _ (by simp [isMark])
        (by simp [isMark]) h
      have hvalue := (Expr.readsBack hrvalue hqvalue).eq_of_text (by simpa using hrest)
      cases r
      cases q
      simp_all

theorem register_inj {x y : String} {t u : Ty} {e f : Expr} {a b : Option Reset}
    (hl : (Line.stmt (.register x t e a)).Spelled) (hm : (Line.stmt (.register y u f b)).Spelled)
    (hrest : (Line.stmt (.register x t e a)).rest = (Line.stmt (.register y u f b)).rest) :
    Stmt.register x t e a = .register y u f b := by
  obtain ⟨hx, ht, he, ha⟩ := hl
  obtain ⟨hy, hu, hf, hb⟩ := hm
  have hstops (c : Option Reset) : Stops ((c.map Reset.text).getD "").toList := by
    cases c with
    | none => simp
    | some r =>
      have : r.text.toList.head? = some ' ' := by
        unfold Reset.text
        simp [String.toList_append]
      simp [Stops, this, isMark]
  obtain ⟨hname, htypes⟩ := identifier_unique hx hy (by simp) (by simp) (List.cons_injective hrest)
  simp only [List.cons.injEq, true_and] at htypes
  obtain ⟨htype, hclocks⟩ := Ty.readsBack ht hu _ _ (by simp [isMark]) (by simp [isMark]) htypes
  simp only [List.cons.injEq, true_and] at hclocks
  obtain ⟨hclock, hresets⟩ := Expr.readsBack he hf _ _ (hstops a) (hstops b) hclocks
  rw [hname, htype, hclock, reset_inj ha hb hresets]

theorem operandTexts_printf {clock condition : Expr} {args : List Expr} (format : Bytes)
    (hclock : clock.IsLegible) (hcondition : condition.IsLegible) (hargs : ∀ e ∈ args, e.IsLegible) :
    ∀ x ∈ clock.text :: condition.text :: formatText format :: args.map Expr.text,
      OperandText x := by
  simp only [List.mem_cons, List.mem_map]
  rintro x (rfl | rfl | rfl | ⟨e, he, rfl⟩)
  · exact (Expr.spelled hclock).operandText
  · exact (Expr.spelled hcondition).operandText
  · exact .format format
  · exact (Expr.spelled (hargs e he)).operandText

theorem operandTexts_stop {clock condition : Expr} (hclock : clock.IsLegible)
    (hcondition : condition.IsLegible) (exitCode : Int64) :
    ∀ x ∈ [clock.text, condition.text, decimal exitCode], OperandText x := by
  simp only [List.mem_cons, List.not_mem_nil, or_false]
  rintro x (rfl | rfl | rfl)
  · exact (Expr.spelled hclock).operandText
  · exact (Expr.spelled hcondition).operandText
  · exact .word _ (isWord_decimal exitCode)

/-- Statements that are written alike are read alike. -/
theorem stmt_inj {s t : Stmt} (hs : (Line.stmt s).Spelled) (ht : (Line.stmt t).Spelled)
    (h : s.text = t.text) : s.decoded = t.decoded := by
  -- statements of two kinds differ by kind of line, or by first word where they do not
  obtain ⟨hword, hkind, hrest⟩ := hs.parts_eq ht h
  cases s with
  | absent => cases hs
  | foreign kind => cases hs
  | connect lhs rhs =>
    cases t with
    | connect lhs' rhs' =>
      have hrhs := (Expr.readsBack hs.2 ht.2).eq_of_text (by simpa [rest] using hrest)
      rw [show lhs = lhs' from hword, hrhs]
    | _ => cases hkind
  | register x type clock reset =>
    cases t with
    | register y type' clock' reset' => rw [register_inj hs ht hrest]
    | wire y type' => simp [word] at hword
    | absent => cases ht
    | foreign kind => cases ht
    | _ => cases hkind
  | wire x type =>
    cases t with
    | wire y type' =>
      obtain ⟨hname, htypes⟩ := identifier_unique hs.1 ht.1 (by simp) (by simp)
        (List.cons_injective hrest)
      have htype := (Ty.readsBack hs.2 ht.2).eq_of_text (by simpa using htypes)
      rw [hname, htype]
    | register y type' clock' reset' => simp [word] at hword
    | absent => cases ht
    | foreign kind => cases ht
    | _ => cases hkind
  | printf clock condition format args =>
    cases t with
    | printf clock' condition' format' args' =>
      obtain ⟨hclock, hcondition, hargs⟩ := hs
      obtain ⟨hclock', hcondition', hargs'⟩ := ht
      have hparts := (callText_inj (by decide) (by decide)
        (operandTexts_printf format hclock hcondition hargs)
        (operandTexts_printf format' hclock' hcondition' hargs') h).2
      simp only [List.cons.injEq] at hparts
      obtain ⟨hclocks, hconditions, hformats, hlists⟩ := hparts
      rw [Stmt.decoded, Stmt.decoded, (Expr.spelled hclock).text_inj (Expr.spelled hclock') hclocks,
        (Expr.spelled hcondition).text_inj (Expr.spelled hcondition') hconditions,
        decode_of_formatText hformats,
        map_inj_of_mem (fun e he f hf =>
          (Expr.spelled (hargs e he)).text_inj (Expr.spelled (hargs' f hf))) hlists]
    | stop clock' condition' exitCode' => simp [word] at hword
    | _ => cases hkind
  | stop clock condition exitCode =>
    cases t with
    | stop clock' condition' exitCode' =>
      have hparts := (callText_inj (by decide) (by decide) (operandTexts_stop hs.1 hs.2 exitCode)
        (operandTexts_stop ht.1 ht.2 exitCode') h).2
      simp only [List.cons.injEq, and_true] at hparts
      obtain ⟨hclocks, hconditions, hcodes⟩ := hparts
      rw [(Expr.spelled hs.1).text_inj (Expr.spelled ht.1) hclocks,
        (Expr.spelled hs.2).text_inj (Expr.spelled ht.2) hconditions, decimal_injective hcodes]
    | printf clock' condition' format' args' => simp [word] at hword
    | _ => cases hkind

/-- No statement begins with the direction of a port. -/
theorem port_ne_stmt {p : Port} {s : Stmt} (hp : (Line.port p).Spelled)
    (hs : (Line.stmt s).Spelled) : p.text ≠ s.text := by
  intro h
  obtain ⟨hword, hkind, -⟩ := hp.parts_eq hs h
  have hdir : p.dir.keyword = "input" ∨ p.dir.keyword = "output" := by
    have hknown := hp.1
    cases hd : p.dir <;> simp_all [Direction.isKnown, Direction.keyword]
  cases s with
  | register x type clock reset => rcases hdir with hdir | hdir <;> simp [word, hdir] at hword
  | wire x type => rcases hdir with hdir | hdir <;> simp [word, hdir] at hword
  | absent => cases hs
  | foreign kind => cases hs
  | _ => cases hkind

/-- Lines of a module that are written alike are read alike. -/
theorem Spelled.text_inj {l m : Line} (hl : l.Spelled) (hm : m.Spelled) (h : l.text = m.text) :
    l.decoded = m.decoded := by
  cases l with
  | port p =>
    cases m with
    | port q =>
      obtain ⟨hword, -, hrest⟩ := hl.parts_eq hm h
      rw [port_inj hl hm hword hrest]
    | stmt t => exact absurd h (port_ne_stmt hl hm)
  | stmt s =>
    cases m with
    | port q => exact absurd h.symm (port_ne_stmt hm hl)
    | stmt t => rw [decoded, decoded, stmt_inj hl hm h]

end Line

/-! ### Modules and circuits -/

def Module.header (m : Module) : String := "  module " ++ m.name ++ " :"

def Module.content (m : Module) : List Line :=
  m.ports.map .port ++ m.statements.map .stmt

theorem Module.lines_eq (m : Module) :
    m.lines = m.header :: m.content.map fun l => "    " ++ l.text := by
  simp [Module.lines, Module.header, Module.content, Function.comp_def, Line.text]

theorem Module.content_inj {m n : Module} (hname : m.name = n.name)
    (h : m.content.map Line.decoded = n.content.map Line.decoded) : m.decoded = n.decoded := by
  have hports (m : Module) : (m.content.map Line.decoded).filterMap Line.port? = m.ports := by
    simp [Module.content, List.filterMap_append, List.filterMap_map, Function.comp_def, Line.port?,
      Line.decoded]
  have hstatements (m : Module) :
      (m.content.map Line.decoded).filterMap Line.stmt? = m.statements.map Stmt.decoded := by
    simp [Module.content, List.filterMap_append, List.filterMap_map, Function.comp_def, Line.stmt?,
      Line.decoded]
  rw [Module.decoded, Module.decoded, hname, ← hports m, ← hports n, ← hstatements m,
    ← hstatements n, h]

/-- Whether a line is deep enough for a port or a statement. -/
def isIndented (line : String) : Bool := line.toList.take 3 == [' ', ' ', ' ']

theorem Module.not_isIndented (m : Module) : isIndented m.header = false := by
  simp [isIndented, Module.header]

theorem Line.isIndented (l : Line) : isIndented ("    " ++ l.text) := by
  simp [Rtl.isIndented]

theorem Module.header_inj {m n : Module} (h : m.header = n.header) : m.name = n.name := by
  simpa [Module.header, String.append_right_inj, String.append_left_inj] using h

/-- A line that is not indented is where the next module begins. -/
theorem modules_inj {ms ns : List Module} (hms : ∀ m ∈ ms, ∀ l ∈ m.content, l.Spelled)
    (hns : ∀ n ∈ ns, ∀ l ∈ n.content, l.Spelled)
    (h : ms.flatMap Module.lines = ns.flatMap Module.lines) :
    ms.map Module.decoded = ns.map Module.decoded := by
  have hnext (ms : List Module) :
      ∀ x ∈ (ms.flatMap Module.lines).head?, isIndented x = false := by
    cases ms with
    | nil => simp
    | cons m ms =>
      simp only [List.flatMap_cons, Module.lines_eq, List.cons_append, List.head?_cons]
      rintro x ⟨⟩
      exact m.not_isIndented
  have hindented (m : Module) : ∀ x ∈ m.content.map fun l => "    " ++ l.text, isIndented x := by
    simp only [List.mem_map]
    rintro x ⟨l, -, rfl⟩
    exact l.isIndented
  induction ms generalizing ns with
  | nil =>
    cases ns with
    | nil => rfl
    | cons n ns => simp [Module.lines_eq] at h
  | cons m ms ih =>
    cases ns with
    | nil => simp [Module.lines_eq] at h
    | cons n ns =>
      simp only [List.flatMap_cons, Module.lines_eq, List.cons_append, List.cons.injEq] at h
      obtain ⟨hheader, hrest⟩ := h
      obtain ⟨hcontent, hmodules⟩ := run_unique isIndented (hindented m) (hindented n) (hnext ms)
        (hnext ns) hrest
      have hsame : m.decoded = n.decoded := by
        refine Module.content_inj (Module.header_inj hheader) (map_congr_of_mem ?_ hcontent)
        intro l hl k hk htext
        exact (hms m (by simp) l hl).text_inj (hns n (by simp) k hk)
          ((String.append_right_inj _).mp htext)
      rw [List.map_cons, List.map_cons, hsame, ih (fun m hm => hms m (by simp [hm])) (fun n hn => hns n (by simp [hn])) hmodules]

theorem Circuit.text_eq (c : Circuit) :
    c.text = "circuit " ++ c.name ++ " :\n" ++ joinLines (c.modules.flatMap Module.lines) := by
  rw [← joinLines_map fun m => by simp [Module.lines]]
  rfl

theorem Module.spelled {m : Module} (h : Legible [m.tree]) : ∀ l ∈ m.content, l.Spelled := by
  obtain ⟨⟨hself, -, -⟩, hparts⟩ := legible_singleton.mp h
  obtain ⟨hports, hstatements⟩ := legible_append.mp hparts
  rw [legible_map] at hports
  rw [legible_flatMap] at hstatements
  obtain ⟨_, -, hself⟩ := bind_eq_ok.mp hself
  have hpresent := List.all_eq_true.mp (ite_error_ok.mp hself).1
  simp only [Module.content, List.mem_append, List.mem_map]
  rintro l (⟨p, hp, rfl⟩ | ⟨s, hs, rfl⟩)
  · exact Line.port_spelled (hports p hp)
  · exact Line.stmt_spelled (hpresent s hs) (hstatements s hs)

theorem Module.onOneLine_lines {m : Module} (h : NamesOnOneLine [m.tree]) :
    ∀ x ∈ m.lines, OnOneLine x ∧ x ≠ "" := by
  obtain ⟨hname, hparts, -⟩ := namesOnOneLine_cons.mp h
  obtain ⟨hports, hstatements⟩ := namesOnOneLine_append.mp hparts
  rw [namesOnOneLine_map] at hports
  rw [namesOnOneLine_flatMap] at hstatements
  have hheader : OnOneLine m.header := by
    simp only [Module.header, onOneLine_append]
    exact ⟨⟨by decide, hname m.name rfl⟩, by decide⟩
  rw [Module.lines_eq]
  simp only [Module.content, List.mem_cons, List.mem_map, List.mem_append]
  rintro x (rfl | ⟨l, ⟨p, hp, rfl⟩ | ⟨s, hs, rfl⟩, rfl⟩)
  · exact ⟨hheader, by simp [Module.header, String.append_eq_empty_iff]⟩
  · refine ⟨(onOneLine_append _ _).mpr ⟨by decide, p.onOneLine_text (hports p hp)⟩, ?_⟩
    simp [String.append_eq_empty_iff]
  · refine ⟨(onOneLine_append _ _).mpr ⟨by decide, s.onOneLine_text (hstatements s hs)⟩, ?_⟩
    simp [String.append_eq_empty_iff]

/-- The lines of a circuit below its header stay on one line each. -/
theorem Circuit.onOneLine_lines {c : Circuit} (h : NamesOnOneLine [c.tree]) :
    ∀ x ∈ c.modules.flatMap Module.lines, OnOneLine x ∧ x ≠ "" := by
  obtain ⟨-, hmodules, -⟩ := namesOnOneLine_cons.mp h
  rw [namesOnOneLine_map] at hmodules
  simp only [List.mem_flatMap]
  rintro x ⟨m, hm, hx⟩
  exact Module.onOneLine_lines (hmodules m hm) x hx

theorem Circuit.onOneLine_header {c : Circuit} (h : NamesOnOneLine [c.tree]) :
    OnOneLine ("circuit " ++ c.name ++ " :") := by
  simp only [onOneLine_append]
  exact ⟨⟨by decide, (namesOnOneLine_cons.mp h).1 c.name rfl⟩, by decide⟩

theorem Circuit.print_ok {c : Circuit} (h : (Node.circuit c).check = .ok ()) :
    c.print = .ok c.text :=
  Node.print_of_check rfl h

/-- Circuits that are written alike are read alike. -/
theorem Circuit.text_inj {c d : Circuit} (hc : Legible [c.tree]) (hd : Legible [d.tree])
    (h : c.text = d.text) : c.decoded = d.decoded := by
  have htext (c : Circuit) : c.text.toList = ("circuit " ++ c.name ++ " :").toList ++
      '\n' :: (joinLines (c.modules.flatMap Module.lines)).toList := by
    simp [c.text_eq]
  have hlines := congrArg String.toList h
  rw [htext, htext] at hlines
  obtain ⟨hheader, hrest⟩ := line_unique (Circuit.onOneLine_header hc.namesOnOneLine)
    (Circuit.onOneLine_header hd.namesOnOneLine) (by simp) (by simp) hlines
  have hname : c.name = d.name := by
    simpa [String.append_right_inj, String.append_left_inj] using hheader
  have hmodules : c.modules.map Module.decoded = d.modules.map Module.decoded := by
    have hspelled {c : Circuit} (hc : Legible [c.tree]) :
        ∀ m ∈ c.modules, ∀ l ∈ m.content, l.Spelled := by
      intro m hm
      exact Module.spelled (legible_map.mp (legible_singleton.mp hc).2 m hm)
    apply modules_inj (hspelled hc) (hspelled hd)
    apply joinLines_unique (Circuit.onOneLine_lines hc.namesOnOneLine)
      (Circuit.onOneLine_lines hd.namesOnOneLine)
    simpa [String.toList_inj] using hrest
  rw [Circuit.decoded, Circuit.decoded, hname, hmodules]

/-- Two well-formed circuits in which every name is an identifier have texts. They have one text exactly
if they differ in bytes of formats that are not those of any character and in nothing else; so they are
one circuit if they have one text and their formats are texts. -/
theorem Circuit.print_inj (c d : Circuit) (hc : (Node.circuit c).check = .ok ())
    (hd : (Node.circuit d).check = .ok ()) (hcnames : ∀ x ∈ (Node.circuit c).names, isIdentifier x)
    (hdnames : ∀ x ∈ (Node.circuit d).names, isIdentifier x) :
    ∃ s t, c.print = .ok s ∧ d.print = .ok t ∧ (s = t ↔ c.decoded = d.decoded) ∧
      (c.HasTextFormats → d.HasTextFormats → (s = t ↔ c = d)) := by
  have hiff : c.text = d.text ↔ c.decoded = d.decoded := by
    refine ⟨text_inj (Node.legible hc hcnames) (Node.legible hd hdnames), fun h => ?_⟩
    rw [← c.text_decoded, h, d.text_decoded]
  refine ⟨c.text, d.text, print_ok hc, print_ok hd, hiff, fun hctext hdtext => ?_⟩
  rw [hiff, hctext.decoded_eq, hdtext.decoded_eq]

/-- A circuit that displays a register. -/
def Circuit.display (format : Bytes) : Circuit :=
  ⟨"top", [⟨"top", [⟨"clk", .clock, .input⟩, ⟨"reset", .uint 1, .input⟩,
      ⟨"io", .bundle [⟨"a", .vector (.uint 8) 2⟩], .output⟩],
    [.register "reg" (.uint 8) (.ref "clk") (some ⟨.ref "reset", .literal 0 (.uint 8)⟩),
      .connect "reg" (.tail (.binary .add (.ref "reg") (.literal 1 (.uint 8))) 1),
      .printf (.ref "clk") (.literal 1 (.uint 1)) format [.ref "reg"]]⟩]⟩

/-- A newline in a format and a backslash before a letter are written apart. -/
theorem Circuit.print_inj_display :
    ∃ s t, (Circuit.display "%d\n").print = .ok s ∧ (Circuit.display "%d\\n").print = .ok t ∧
      s ≠ t := by
  obtain ⟨s, t, hs, ht, hiff, -⟩ :=
    Circuit.print_inj (Circuit.display "%d\n") (Circuit.display "%d\\n")
      (by decide +kernel) (by decide +kernel) (by decide +kernel) (by decide +kernel)
  exact ⟨s, t, hs, ht, fun h => absurd (hiff.mp h) (by decide +kernel)⟩

/-- Two bytes that no text begins with are written alike, and like the replacement character. -/
theorem Circuit.print_display_alike :
    (∀ format ∈ [[0xfe], [0xff], bytes "\uFFFD"],
      (Node.circuit (Circuit.display format)).check = .ok () ∧
      (∀ x ∈ (Node.circuit (Circuit.display format)).names, isIdentifier x) ∧
      (Circuit.display format).print = (Circuit.display [0xfe]).print) ∧
    Circuit.display [0xff] ≠ Circuit.display [0xfe] ∧
    Circuit.display "\uFFFD" ≠ Circuit.display [0xfe] := by
  decide +kernel

end GuardedRtl.Rtl
