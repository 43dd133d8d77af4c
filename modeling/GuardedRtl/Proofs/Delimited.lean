import GuardedRtl.Proofs.Decimals
import GuardedRtl.Rtl.Print
import Mathlib.Tactic

/-! Text that can be taken apart again. A run of one class of items ends where the next item is of
another, `run_unique`. Lists between commas give back their items, `commaSeparated_unique`, operands
of any depth can be told from one another, `OperandText.readsBack`, and text of many lines gives back
the list of its lines, `joinLines_unique`. -/

namespace GuardedRtl.Rtl

open Text (Bytes)

/-- Runs that cannot be longer are the same where the lists that they begin are. -/
theorem run_unique {α : Type} (p : α → Bool) {v w r s : List α}
    (hv : ∀ a ∈ v, p a) (hw : ∀ a ∈ w, p a)
    (hr : ∀ a ∈ r.head?, p a = false) (hs : ∀ a ∈ s.head?, p a = false)
    (h : v ++ r = w ++ s) : v = w ∧ r = s := by
  induction v generalizing w with
  | nil =>
    cases w with
    | nil => exact ⟨rfl, h⟩
    | cons b w =>
      have hb : p b := hw b (by simp)
      simp only [List.nil_append, List.cons_append] at h
      simp [h, hb] at hr
  | cons a v ih =>
    have ha : p a := hv a (by simp)
    cases w with
    | nil =>
      simp only [List.nil_append, List.cons_append] at h
      simp [← h, ha] at hs
    | cons b w =>
      simp only [List.cons_append, List.cons.injEq] at h
      obtain ⟨rfl, h⟩ := h
      obtain ⟨rfl, rfl⟩ := ih (fun c hc => hv c (by simp [hc])) (fun c hc => hw c (by simp [hc])) h
      exact ⟨rfl, rfl⟩

theorem map_congr_of_mem {α β γ : Type} {f : α → γ} {g : α → β} {as bs : List α}
    (h : ∀ a ∈ as, ∀ b ∈ bs, g a = g b → f a = f b) (hmap : as.map g = bs.map g) :
    as.map f = bs.map f := by
  induction as generalizing bs with
  | nil =>
    obtain rfl : bs = [] := by simpa using hmap.symm
    rfl
  | cons a as ih =>
    cases bs with
    | nil => simp at hmap
    | cons b bs =>
      simp only [List.map_cons, List.cons.injEq] at hmap
      rw [List.map_cons, List.map_cons, h a (by simp) b (by simp) hmap.1,
        ih (fun a ha b hb => h a (by simp [ha]) b (by simp [hb])) hmap.2]

theorem map_inj_of_mem {α β : Type} {g : α → β} {as bs : List α}
    (h : ∀ a ∈ as, ∀ b ∈ bs, g a = g b → a = b) (hmap : as.map g = bs.map g) : as = bs := by
  simpa using map_congr_of_mem (f := id) h hmap

/-! ### Words and marks -/

/-- What may stand after a type, a field or an operand. -/
def isMark (c : Char) : Bool := c == ',' || c == ')' || c == '\x7d' || c == ' '

/-- What names, numbers and keywords are made of. -/
def isWordChar (c : Char) : Bool := !isMark c && c != '(' && c != '"'

/-- Whether the text is empty or goes on with a mark. -/
def Stops (r : List Char) : Prop := ∀ c ∈ r.head?, isMark c

@[simp] theorem stops_nil : Stops [] := by simp [Stops]

@[simp] theorem stops_cons (c : Char) (r : List Char) : Stops (c :: r) ↔ isMark c := by simp [Stops]

def IsWord (w : List Char) : Prop := w ≠ [] ∧ ∀ c ∈ w, isWordChar c

instance (w : List Char) : Decidable (IsWord w) :=
  decidable_of_iff (w ≠ [] ∧ w.all isWordChar) (by simp [IsWord])

theorem IsWord.append {v w : List Char} (hv : IsWord v) (hw : ∀ c ∈ w, isWordChar c) :
    IsWord (v ++ w) := by
  refine ⟨by simp [hv.1], fun c hc => ?_⟩
  rcases List.mem_append.mp hc with hc | hc
  · exact hv.2 c hc
  · exact hw c hc

theorem isWord_decimal (n : Int64) : IsWord (decimal n).toList := by
  refine ⟨decimal_ne_nil n, fun c hc => ?_⟩
  rcases mem_decimal hc with rfl | hc
  · decide
  · simp only [isWordChar, isMark, Bool.and_eq_true, Bool.not_eq_true', Bool.or_eq_false_iff,
      beq_eq_false_iff_ne, bne_iff_ne]
    refine ⟨⟨⟨⟨⟨?_, ?_⟩, ?_⟩, ?_⟩, ?_⟩, ?_⟩ <;> rintro rfl <;> simp at hc

/-- A number is over where no digit follows. -/
theorem decimal_unique {m n : Int64} {r s : List Char}
    (hr : ∀ c ∈ r.head?, c ≠ '-' ∧ c.isDigit = false)
    (hs : ∀ c ∈ s.head?, c ≠ '-' ∧ c.isDigit = false)
    (h : (decimal m).toList ++ r = (decimal n).toList ++ s) : m = n ∧ r = s := by
  have hdigits (k : Int64) : ∀ c ∈ (decimal k).toList, (c == '-' || c.isDigit) = true := by
    intro c hc
    simpa using mem_decimal hc
  obtain ⟨hmn, hrs⟩ := run_unique (fun c => c == '-' || c.isDigit) (hdigits m) (hdigits n)
    (fun c hc => by simp [hr c hc]) (fun c hc => by simp [hs c hc]) h
  exact ⟨decimal_injective (String.toList_inj.mp hmn), hrs⟩

/-- A word is over where a mark or a parenthesis opens. -/
theorem word_unique {v w r s : List Char} (hv : IsWord v) (hw : IsWord w)
    (hr : ∀ c ∈ r.head?, isMark c ∨ c = '(') (hs : ∀ c ∈ s.head?, isMark c ∨ c = '(')
    (h : v ++ r = w ++ s) : v = w ∧ r = s := by
  have hends {c : Char} (hc : isMark c ∨ c = '(') : isWordChar c = false := by
    rcases hc with hc | rfl
    · simp [isWordChar, hc]
    · decide
  exact run_unique isWordChar hv.2 hw.2 (fun c hc => hends (hr c hc)) (fun c hc => hends (hs c hc)) h

/-- A mark does not begin a word. -/
theorem IsWord.not_stops {w : List Char} (hw : IsWord w) (r : List Char) : ¬ Stops (w ++ r) := by
  obtain ⟨hne, hchars⟩ := hw
  cases w with
  | nil => exact absurd rfl hne
  | cons c w =>
    have hc := hchars c (by simp)
    simp only [isWordChar, Bool.and_eq_true, Bool.not_eq_true'] at hc
    simp [hc.1.1]

/-- Of the two texts, each before a mark, one can be told from the other, and where it ends. -/
def ReadsBack {α : Type} (text : α → List Char) (a b : α) : Prop :=
  ∀ r s, Stops r → Stops s → text a ++ r = text b ++ s → a = b ∧ r = s

theorem ReadsBack.eq_of_text {α : Type} {text : α → List Char} {a b : α} (h : ReadsBack text a b)
    (htext : text a = text b) : a = b :=
  (h [] [] (by simp) (by simp) (by rw [htext])).1

/-! ### Lists with commas -/

section

variable {α : Type} {text : α → List Char}

/-- The items after the first. -/
def furtherItems (text : α → List Char) (as : List α) : List Char :=
  as.flatMap fun a => ',' :: ' ' :: text a

theorem stops_furtherItems (as : List α) {r : List Char} (hr : Stops r) :
    Stops (furtherItems text as ++ r) := by
  cases as with
  | nil => simpa [furtherItems] using hr
  | cons a as => simp [furtherItems, isMark]

theorem furtherItems_unique {as bs : List α} {close : Char} {r s : List Char}
    (hreads : ∀ a ∈ as, ∀ b ∈ bs, ReadsBack text a b) (hclose : isMark close) (hcomma : close ≠ ',')
    (h : furtherItems text as ++ close :: r = furtherItems text bs ++ close :: s) :
    as = bs ∧ r = s := by
  induction as generalizing bs with
  | nil =>
    cases bs with
    | nil => simpa [furtherItems] using h
    | cons b bs => simp [furtherItems, hcomma] at h
  | cons a as ih =>
    cases bs with
    | nil =>
      simp only [furtherItems, List.flatMap_cons, List.flatMap_nil, List.cons_append,
        List.nil_append, List.cons.injEq] at h
      exact absurd h.1.symm hcomma
    | cons b bs =>
      have h : text a ++ (furtherItems text as ++ close :: r) =
          text b ++ (furtherItems text bs ++ close :: s) := by
        simpa [furtherItems] using h
      obtain ⟨rfl, hrest⟩ := hreads a (by simp) b (by simp) _ _
        (stops_furtherItems as (by simpa using hclose))
        (stops_furtherItems bs (by simpa using hclose)) h
      obtain ⟨rfl, rfl⟩ := ih (fun a ha b hb => hreads a (by simp [ha]) b (by simp [hb])) hrest
      exact ⟨rfl, rfl⟩

theorem toList_commaSeparated_cons (x : String) (xs : List String) :
    (commaSeparated (x :: xs)).toList = x.toList ++ furtherItems String.toList xs := by
  induction xs generalizing x with
  | nil => simp [commaSeparated, furtherItems]
  | cons y ys ih => simp [commaSeparated, ih, furtherItems]

/-- A list between commas, up to the character that closes it, gives back its items. -/
theorem commaSeparated_unique {text : α → String} {as bs : List α} {close : Char} {r s : List Char}
    (hreads : ∀ a ∈ as, ∀ b ∈ bs, ReadsBack (fun a => (text a).toList) a b)
    (has : ∀ a ∈ as, ∀ r, ¬ Stops ((text a).toList ++ r))
    (hbs : ∀ b ∈ bs, ∀ r, ¬ Stops ((text b).toList ++ r))
    (hclose : isMark close) (hcomma : close ≠ ',')
    (h : (commaSeparated (as.map text)).toList ++ close :: r =
      (commaSeparated (bs.map text)).toList ++ close :: s) : as = bs ∧ r = s := by
  have hstops (t : List Char) : Stops (close :: t) := by simpa using hclose
  have hcons (a : α) (as : List α) (r : List Char) :
      (commaSeparated ((a :: as).map text)).toList ++ close :: r =
        (text a).toList ++ (furtherItems (fun a => (text a).toList) as ++ close :: r) := by
    simp [toList_commaSeparated_cons, furtherItems, List.flatMap_map]
  cases as with
  | nil =>
    cases bs with
    | nil => simpa [commaSeparated] using h
    | cons b bs =>
      -- the mark that closes the empty list would begin an item
      rw [hcons] at h
      change close :: r = _ at h
      exact absurd (h ▸ hstops r) (hbs b (by simp) _)
  | cons a as =>
    cases bs with
    | nil =>
      rw [hcons] at h
      change _ = close :: s at h
      exact absurd (h.symm ▸ hstops s) (has a (by simp) _)
    | cons b bs =>
      rw [hcons, hcons] at h
      obtain ⟨rfl, hrest⟩ := hreads a (by simp) b (by simp) _ _ (stops_furtherItems as (hstops r))
        (stops_furtherItems bs (hstops s)) h
      obtain ⟨rfl, rfl⟩ := furtherItems_unique
        (fun a ha b hb => hreads a (by simp [ha]) b (by simp [hb])) hclose hcomma hrest
      exact ⟨rfl, rfl⟩

end

/-! ### Formats -/

/-- What a character is written as is itself, or two characters that begin with a backslash. -/
theorem formatEscape_cases (c : Char) :
    formatEscape c = [c] ∧ c ≠ '"' ∧ c ≠ '\\' ∧ c ≠ '\n' ∨
      ∃ d, formatEscape c = ['\\', d] ∧ d ≠ '\n' := by
  unfold formatEscape
  split_ifs with hquote hslash hline htab <;> simp_all

theorem formatEscape_injective : Function.Injective formatEscape := by
  intro c d h
  unfold formatEscape at h
  split_ifs at h <;> simp_all

theorem formatEscape_unique {c d : Char} {r s : List Char}
    (h : formatEscape c ++ r = formatEscape d ++ s) : c = d ∧ r = s := by
  rcases formatEscape_cases c with ⟨hc, -, hcslash, -⟩ | ⟨x, hc, -⟩ <;>
    rcases formatEscape_cases d with ⟨hd, -, hdslash, -⟩ | ⟨y, hd, -⟩
  · simpa [hc, hd] using h
  · simp [hc, hd, hcslash] at h
  · rw [hc, hd] at h
    simp [hdslash.symm] at h
  · have h' : x = y ∧ r = s := by simpa [hc, hd] using h
    exact ⟨formatEscape_injective (by rw [hc, hd, h'.1]), h'.2⟩

theorem format_unique {f g : List Char} {r s : List Char}
    (h : f.flatMap formatEscape ++ '"' :: r = g.flatMap formatEscape ++ '"' :: s) :
    f = g ∧ r = s := by
  -- no character is written with a quote first, so the closing quote is the first bare one
  have hquote (c : Char) (t : List Char) : ∀ u, '"' :: u ≠ formatEscape c ++ t := by
    intro u hu
    rcases formatEscape_cases c with ⟨hc, hne, -⟩ | ⟨x, hc, -⟩
    · rw [hc] at hu
      simp [hne.symm] at hu
    · simp [hc] at hu
  induction f generalizing g with
  | nil =>
    cases g with
    | nil => simpa using h
    | cons d g =>
      simp only [List.flatMap_nil, List.nil_append, List.flatMap_cons, List.append_assoc] at h
      exact absurd h (hquote d _ _)
  | cons c f ih =>
    cases g with
    | nil =>
      simp only [List.flatMap_nil, List.nil_append, List.flatMap_cons, List.append_assoc] at h
      exact absurd h.symm (hquote c _ _)
    | cons d g =>
      simp only [List.flatMap_cons, List.append_assoc] at h
      obtain ⟨rfl, hrest⟩ := formatEscape_unique h
      obtain ⟨rfl, rfl⟩ := ih hrest
      exact ⟨rfl, rfl⟩

theorem toList_formatText (format : Bytes) :
    (formatText format).toList =
      '"' :: ((Text.decode format).toList.flatMap formatEscape ++ ['"']) := by
  simp [formatText]

/-- What is written of a format is the text in it. -/
theorem formatText_congr {f g : Bytes} (h : Text.decode f = Text.decode g) :
    formatText f = formatText g := by
  rw [formatText, formatText, h]

theorem formatText_unique {f g : Bytes} {r s : List Char}
    (h : (formatText f).toList ++ r = (formatText g).toList ++ s) :
    Text.decode f = Text.decode g ∧ r = s := by
  rw [toList_formatText, toList_formatText] at h
  obtain ⟨hfg, hrs⟩ := format_unique (by simpa using h)
  exact ⟨String.toList_inj.mp hfg, hrs⟩

theorem decode_of_formatText {f g : Bytes} (h : formatText f = formatText g) :
    Text.decode f = Text.decode g :=
  (formatText_unique (r := []) (s := []) (by rw [h])).1

/-! ### Operands -/

/-- What is written as an operand: a word, a format, or a word before operands in parentheses. -/
inductive OperandText : String → Prop
  | word (w : String) (hw : IsWord w.toList) : OperandText w
  | format (f : Bytes) : OperandText (formatText f)
  | call (op : String) (xs : List String) (hop : IsWord op.toList)
    (hxs : ∀ x ∈ xs, OperandText x) : OperandText (callText op xs)

theorem toList_callText (op : String) (xs : List String) :
    (callText op xs).toList = op.toList ++ '(' :: ((commaSeparated xs).toList ++ [')']) := by
  simp [callText]

theorem OperandText.not_stops {x : String} (hx : OperandText x) (r : List Char) :
    ¬ Stops (x.toList ++ r) := by
  cases hx with
  | word w hw => exact hw.not_stops r
  | format f => simp [toList_formatText, isMark]
  | call op xs hop hxs =>
    rw [toList_callText, List.append_assoc]
    exact hop.not_stops _

/-- A word that ends at a mark has no operands. -/
theorem word_ne_call {w op : String} {xs : List String} {r s : List Char} (hw : IsWord w.toList)
    (hop : IsWord op.toList) (hr : Stops r) : w.toList ++ r ≠ (callText op xs).toList ++ s := by
  intro h
  rw [toList_callText, List.append_assoc] at h
  obtain ⟨-, hrest⟩ := word_unique hw hop (fun c hc => .inl (hr c hc)) (by simp) h
  rw [hrest] at hr
  simp [isMark] at hr

/-- A format begins as no word does. -/
theorem format_ne_word {f : Bytes} {w r s : List Char} (hw : IsWord w) :
    (formatText f).toList ++ r ≠ w ++ s := by
  intro h
  obtain ⟨hne, hchars⟩ := hw
  cases w with
  | nil => exact hne rfl
  | cons c w =>
    have hc : isWordChar c := hchars c (by simp)
    rw [toList_formatText, List.cons_append, List.cons_append, List.cons.injEq] at h
    rw [← h.1] at hc
    exact absurd hc (by decide)

theorem callText_unique {op op' : String} {xs ys : List String} {r s : List Char}
    (hop : IsWord op.toList) (hop' : IsWord op'.toList) (hxs : ∀ x ∈ xs, OperandText x)
    (hys : ∀ y ∈ ys, OperandText y)
    (hreads : ∀ x ∈ xs, ∀ y ∈ ys, ReadsBack String.toList x y)
    (h : (callText op xs).toList ++ r = (callText op' ys).toList ++ s) :
    op = op' ∧ xs = ys ∧ r = s := by
  rw [toList_callText, toList_callText, List.append_assoc, List.append_assoc] at h
  obtain ⟨hops, hrest⟩ := word_unique hop hop' (by simp) (by simp) h
  have hitems : (commaSeparated (xs.map id)).toList ++ ')' :: r =
      (commaSeparated (ys.map id)).toList ++ ')' :: s := by
    simpa using hrest
  obtain ⟨hxy, hrs⟩ := commaSeparated_unique hreads (fun x hx => (hxs x hx).not_stops)
    (fun y hy => (hys y hy).not_stops) (by decide) (by decide) hitems
  exact ⟨String.toList_inj.mp hops, hxy, hrs⟩

/-- Before a mark an operand can be told from any other, and where it ends. -/
theorem OperandText.readsBack {x y : String} (hx : OperandText x) (hy : OperandText y) :
    ReadsBack String.toList x y := by
  induction hx generalizing y with
  | word w hw =>
    intro r s hr hs h
    cases hy with
    | word v hv =>
      obtain ⟨hwv, hrs⟩ := word_unique hw hv (fun c hc => .inl (hr c hc)) (fun c hc => .inl (hs c hc)) h
      exact ⟨String.toList_inj.mp hwv, hrs⟩
    | format f => exact absurd h.symm (format_ne_word hw)
    | call op ys hop hys => exact absurd h (word_ne_call hw hop hr)
  | format f =>
    intro r s hr hs h
    cases hy with
    | word v hv => exact absurd h (format_ne_word hv)
    | format g =>
      obtain ⟨hfg, hrs⟩ := formatText_unique h
      exact ⟨formatText_congr hfg, hrs⟩
    | call op ys hop hys =>
      rw [toList_callText, List.append_assoc] at h
      exact absurd h (format_ne_word hop)
  | call op xs hop hxs ih =>
    intro r s hr hs h
    cases hy with
    | word v hv => exact absurd h.symm (word_ne_call hv hop hs)
    | format g =>
      rw [toList_callText, List.append_assoc] at h
      exact absurd h.symm (format_ne_word hop)
    | call op' ys hop' hys =>
      obtain ⟨rfl, rfl, hrs⟩ := callText_unique hop hop' hxs hys
        (fun x hx y hy => ih x hx (hys y hy)) h
      exact ⟨rfl, hrs⟩

/-- The text of an operator with its operands gives back both. -/
theorem callText_inj {op op' : String} {xs ys : List String} (hop : IsWord op.toList)
    (hop' : IsWord op'.toList) (hxs : ∀ x ∈ xs, OperandText x) (hys : ∀ y ∈ ys, OperandText y)
    (h : callText op xs = callText op' ys) : op = op' ∧ xs = ys := by
  obtain ⟨hops, hitems, -⟩ := callText_unique (r := []) (s := []) hop hop' hxs hys
    (fun x hx y hy => (hxs x hx).readsBack (hys y hy)) (by rw [h])
  exact ⟨hops, hitems⟩

/-! ### Lines -/

/-- Whether the text stays on one line. -/
def OnOneLine (s : String) : Prop := '\n' ∉ s.toList

instance (s : String) : Decidable (OnOneLine s) := inferInstanceAs (Decidable (¬ _))

@[simp] theorem onOneLine_append (s t : String) :
    OnOneLine (s ++ t) ↔ OnOneLine s ∧ OnOneLine t := by
  simp [OnOneLine]

theorem onOneLine_decimal (n : Int64) : OnOneLine (decimal n) := by
  intro h
  rcases mem_decimal h with h | h <;> simp at h

theorem onOneLine_format (format : Bytes) : OnOneLine (formatText format) := by
  have hescape (c : Char) : '\n' ∉ formatEscape c := by
    rcases formatEscape_cases c with ⟨hc, -, -, hline⟩ | ⟨d, hc, hline⟩
    · simpa [hc] using hline.symm
    · simpa [hc] using hline.symm
  simp [OnOneLine, formatText, hescape]

theorem onOneLine_commaSeparated {xs : List String} (h : ∀ x ∈ xs, OnOneLine x) :
    OnOneLine (commaSeparated xs) := by
  cases xs with
  | nil => simp [OnOneLine, commaSeparated]
  | cons x xs =>
    unfold OnOneLine at *
    rw [toList_commaSeparated_cons]
    simp only [furtherItems, List.mem_append, List.mem_flatMap, List.mem_cons]
    rintro (hx | ⟨y, hy, hline | hline | hline⟩)
    · exact h x (by simp) hx
    · simp at hline
    · simp at hline
    · exact h y (by simp [hy]) hline

theorem toList_joinLines_cons (x : String) (xs : List String) :
    (joinLines (x :: xs)).toList = x.toList ++ xs.flatMap fun y => '\n' :: y.toList := by
  induction xs generalizing x with
  | nil => simp [joinLines]
  | cons y ys ih => simp [joinLines, ih]

theorem onOneLine_callText {op : String} {xs : List String} (hop : OnOneLine op)
    (hxs : ∀ x ∈ xs, OnOneLine x) : OnOneLine (callText op xs) := by
  simp only [callText, onOneLine_append]
  exact ⟨⟨⟨hop, by decide⟩, onOneLine_commaSeparated hxs⟩, by decide⟩

/-- A line is over where the next begins. -/
theorem line_unique {x y : String} {r s : List Char} (hx : OnOneLine x) (hy : OnOneLine y)
    (hr : ∀ c ∈ r.head?, c = '\n') (hs : ∀ c ∈ s.head?, c = '\n')
    (h : x.toList ++ r = y.toList ++ s) : x = y ∧ r = s := by
  have hline {z : String} (hz : OnOneLine z) : ∀ c ∈ z.toList, (c != '\n') = true := by
    intro c hc
    simp only [bne_iff_ne]
    rintro rfl
    exact hz hc
  obtain ⟨hxy, hrs⟩ := run_unique (· != '\n') (hline hx) (hline hy)
    (fun c hc => by simp [hr c hc]) (fun c hc => by simp [hs c hc]) h
  exact ⟨String.toList_inj.mp hxy, hrs⟩

theorem lines_unique {xs ys : List String} (hxs : ∀ x ∈ xs, OnOneLine x) (hys : ∀ y ∈ ys, OnOneLine y)
    (h : (xs.flatMap fun x => '\n' :: x.toList) = ys.flatMap fun y => '\n' :: y.toList) :
    xs = ys := by
  have hnext (zs : List String) : ∀ c ∈ (zs.flatMap fun z => '\n' :: z.toList).head?, c = '\n' := by
    cases zs <;> simp
  induction xs generalizing ys with
  | nil =>
    cases ys with
    | nil => rfl
    | cons y ys => simp at h
  | cons x xs ih =>
    cases ys with
    | nil => simp at h
    | cons y ys =>
      simp only [List.flatMap_cons, List.cons_append, List.cons.injEq, true_and] at h
      obtain ⟨rfl, hrest⟩ := line_unique (hxs x (by simp)) (hys y (by simp)) (hnext xs) (hnext ys) h
      rw [ih (fun z hz => hxs z (by simp [hz])) (fun z hz => hys z (by simp [hz])) hrest]

/-- Lines that are not empty give back their list. -/
theorem joinLines_unique {xs ys : List String} (hxs : ∀ x ∈ xs, OnOneLine x ∧ x ≠ "")
    (hys : ∀ y ∈ ys, OnOneLine y ∧ y ≠ "") (h : joinLines xs = joinLines ys) : xs = ys := by
  have hempty (z : String) (zs : List String) (hz : z ≠ "") : joinLines (z :: zs) ≠ "" := by
    intro hjoin
    have := congrArg String.toList hjoin
    rw [toList_joinLines_cons] at this
    simp_all
  cases xs with
  | nil =>
    cases ys with
    | nil => rfl
    | cons y ys => exact absurd h.symm (hempty y ys (hys y (by simp)).2)
  | cons x xs =>
    cases ys with
    | nil => exact absurd h (hempty x xs (hxs x (by simp)).2)
    | cons y ys =>
      -- with one more newline in front, both are lists of lines that each begin with a newline
      have h := congrArg (List.cons '\n' ∘ String.toList) h
      simp only [Function.comp_apply, toList_joinLines_cons] at h
      exact lines_unique (fun z hz => (hxs z hz).1) (fun z hz => (hys z hz).1) (by simpa using h)

theorem joinLines_map {α : Type} {lines : α → List String} (hlines : ∀ a, lines a ≠ [])
    (as : List α) :
    joinLines (as.map fun a => joinLines (lines a)) = joinLines (as.flatMap lines) := by
  have hcons (x : String) (xs ys : List String) :
      (joinLines (x :: (xs ++ ys))).toList =
        (joinLines (x :: xs)).toList ++ ys.flatMap fun y => '\n' :: y.toList := by
    simp [toList_joinLines_cons]
  have hrest (bs : List α) :
      (bs.map fun a => joinLines (lines a)).flatMap (fun y => '\n' :: y.toList) =
        (bs.flatMap lines).flatMap fun y => '\n' :: y.toList := by
    induction bs with
    | nil => rfl
    | cons b bs ih =>
      obtain ⟨x, xs, hb⟩ := List.exists_cons_of_ne_nil (hlines b)
      simp [hb, toList_joinLines_cons, ih]
  cases as with
  | nil => rfl
  | cons a as =>
    obtain ⟨x, xs, ha⟩ := List.exists_cons_of_ne_nil (hlines a)
    apply String.toList_inj.mp
    rw [List.map_cons, toList_joinLines_cons, hrest, List.flatMap_cons, ha, List.cons_append, hcons]

end GuardedRtl.Rtl
