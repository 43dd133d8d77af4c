import GuardedRtl.Proofs.Check
import GuardedRtl.Proofs.Delimited

/-! Types and expressions from their text. Where every node passes its check and every name is an
identifier, `Legible`, the text of a type or an expression tells which it is: `Ty.readsBack` and
`Expr.Spelled.text_inj`. -/

namespace GuardedRtl.Rtl

mutual

/-- The nodes of a tree in the order of a visit. -/
def Tree.nodes : Tree → List Node
  | .node n cs => n :: Tree.nodesOf cs

def Tree.nodesOf : List Tree → List Node
  | [] => []
  | t :: ts => t.nodes ++ Tree.nodesOf ts

end

@[simp] theorem Tree.nodesOf_nil : Tree.nodesOf [] = [] := rfl

@[simp] theorem Tree.nodesOf_cons (n : Node) (cs ts : List Tree) :
    Tree.nodesOf (.node n cs :: ts) = n :: (Tree.nodesOf cs ++ Tree.nodesOf ts) := by
  simp [Tree.nodesOf, Tree.nodes]

@[simp] theorem Tree.nodesOf_append (ts us : List Tree) :
    Tree.nodesOf (ts ++ us) = Tree.nodesOf ts ++ Tree.nodesOf us := by
  induction ts with
  | nil => rfl
  | cons t ts ih => simp [Tree.nodesOf, ih]

/-- A node and all the nodes below it. -/
def Node.nodes (n : Node) : List Node := Tree.nodesOf n.trees

/-- The name that a node carries of its own. -/
def Node.name? : Node → Option String
  | .field f => some f.name
  | .expr (.ref name) => some name
  | .stmt (.register name _ _ _) => some name
  | .stmt (.wire name _) => some name
  | .port p => some p.name
  | .module m => some m.name
  | .circuit c => some c.name
  | _ => none

/-- A letter or an underscore, and then letters, digits and underscores. -/
def isIdentifier (name : String) : Bool :=
  match name.toList with
  | [] => false
  | c :: cs => (c.isAlpha || c == '_') && cs.all fun c => c.isAlphanum || c == '_'

/-- The names in the tree of a node. -/
def Node.names (n : Node) : List String := n.nodes.filterMap Node.name?

/-- Whether the trees are accepted and all names in them are identifiers. -/
def Legible (ts : List Tree) : Prop :=
  AllAccepted ts ∧ ∀ n ∈ Tree.nodesOf ts, ∀ x ∈ n.name?, isIdentifier x

theorem Node.legible {n : Node} (hcheck : n.check = .ok ()) (hnames : ∀ x ∈ n.names, isIdentifier x) :
    Legible n.trees := by
  refine ⟨hcheck, fun m hm x hx => hnames x ?_⟩
  exact List.mem_filterMap.mpr ⟨m, hm, hx⟩

theorem legible_nil : Legible [] := ⟨allAccepted_nil, by simp⟩

theorem legible_append {ts us : List Tree} :
    Legible (ts ++ us) ↔ Legible ts ∧ Legible us := by
  simp only [Legible, allAccepted_append, Tree.nodesOf_append, List.mem_append, or_imp, forall_and]
  tauto

theorem legible_cons {n : Node} {cs ts : List Tree} :
    Legible (.node n cs :: ts) ↔
      (n.checkSelf = .ok () ∧ n.isKnown ∧ ∀ x ∈ n.name?, isIdentifier x) ∧
        Legible cs ∧ Legible ts := by
  simp only [Legible, allAccepted_cons, Tree.nodesOf_cons, List.mem_cons, List.mem_append, or_imp,
    forall_and, forall_eq]
  tauto

theorem legible_singleton {n : Node} {cs : List Tree} :
    Legible [.node n cs] ↔
      (n.checkSelf = .ok () ∧ n.isKnown ∧ ∀ x ∈ n.name?, isIdentifier x) ∧ Legible cs := by
  rw [legible_cons, and_iff_left legible_nil]

theorem legible_flatMap {α : Type} {g : α → List Tree} {xs : List α} :
    Legible (xs.flatMap g) ↔ ∀ x ∈ xs, Legible (g x) := by
  induction xs with
  | nil => simp [legible_nil]
  | cons x xs ih => simp [legible_append, ih]

theorem legible_map {α : Type} {g : α → Tree} {xs : List α} :
    Legible (xs.map g) ↔ ∀ x ∈ xs, Legible [g x] := by
  rw [List.map_eq_flatMap, legible_flatMap]

/-- Whether the place is filled in with a legible type. -/
def Ty.IsLegible (t : Ty) : Prop := t.isPresent ∧ Legible t.trees

/-- Whether the place is filled in with a legible expression. -/
def Expr.IsLegible (e : Expr) : Prop := e.isPresent ∧ Legible e.trees

/-! ### Identifiers -/

theorem isWordChar_of_alphanum {c : Char} (h : (c.isAlphanum || c == '_') = true) :
    isWordChar c := by
  simp only [isWordChar, isMark, Bool.and_eq_true, Bool.not_eq_true', Bool.or_eq_false_iff,
    beq_eq_false_iff_ne, bne_iff_ne]
  refine ⟨⟨⟨⟨⟨?_, ?_⟩, ?_⟩, ?_⟩, ?_⟩, ?_⟩ <;> rintro rfl <;> simp at h

theorem isIdentifier_chars {name : String} (h : isIdentifier name) :
    name.toList ≠ [] ∧ ∀ c ∈ name.toList, (c.isAlphanum || c == '_') = true := by
  unfold isIdentifier at h
  split at h
  · cases h
  · rename_i c cs hname
    simp only [Bool.and_eq_true, List.all_eq_true] at h
    rw [hname]
    refine ⟨by simp, fun d hd => ?_⟩
    rcases List.mem_cons.mp hd with rfl | hd
    · have hfirst := h.1
      simp only [Char.isAlphanum, Bool.or_eq_true] at hfirst ⊢
      tauto
    · exact h.2 d hd

theorem isWord_identifier {name : String} (h : isIdentifier name) : IsWord name.toList := by
  obtain ⟨hne, hchars⟩ := isIdentifier_chars h
  exact ⟨hne, fun c hc => isWordChar_of_alphanum (hchars c hc)⟩

/-- An identifier is over where no letter, digit or underscore follows. -/
theorem identifier_unique {x y : String} {r s : List Char} (hx : isIdentifier x)
    (hy : isIdentifier y) (hr : ∀ c ∈ r.head?, (c.isAlphanum || c == '_') = false)
    (hs : ∀ c ∈ s.head?, (c.isAlphanum || c == '_') = false)
    (h : x.toList ++ r = y.toList ++ s) : x = y ∧ r = s := by
  obtain ⟨hxy, hrs⟩ := run_unique (fun c => c.isAlphanum || c == '_') (isIdentifier_chars hx).2
    (isIdentifier_chars hy).2 hr hs h
  exact ⟨String.toList_inj.mp hxy, hrs⟩

/-! ### Types -/

/-- The type of the elements of the elements, and so on. -/
def Ty.base : Ty → Ty
  | .vector elem _ => elem.base
  | t => t

/-- The lengths of the vectors within vectors, the innermost first. -/
def Ty.counts : Ty → List Int64
  | .vector elem count => elem.counts ++ [count]
  | _ => []

def countsText (counts : List Int64) : List Char :=
  counts.flatMap fun n => '[' :: ((decimal n).toList ++ [']'])

theorem Ty.toList_text (t : Ty) :
    t.text.toList = t.base.text.toList ++ countsText t.counts := by
  cases t with
  | vector elem count =>
    simp [Ty.text, Ty.base, Ty.counts, countsText, Ty.toList_text elem]
  | _ => simp [Ty.base, Ty.counts, countsText]
termination_by structural t

theorem Ty.eq_foldl (t : Ty) : t = t.counts.foldl .vector t.base := by
  cases t with
  | vector elem count =>
    have helem := Ty.eq_foldl elem
    simp only [Ty.counts, Ty.base, List.foldl_append, List.foldl_cons, List.foldl_nil]
    rw [← helem]
  | _ => rfl
termination_by structural t

theorem countsText_unique {ms ns : List Int64} {r s : List Char} (hr : Stops r) (hs : Stops s)
    (h : countsText ms ++ r = countsText ns ++ s) : ms = ns ∧ r = s := by
  have hbracket {t : List Char} (ht : Stops t) (u : List Char) : t ≠ '[' :: u := by
    rintro rfl
    simp [isMark] at ht
  induction ms generalizing ns with
  | nil =>
    cases ns with
    | nil => exact ⟨rfl, h⟩
    | cons n ns => exact absurd (by simpa [countsText] using h) (hbracket hr _)
  | cons m ms ih =>
    cases ns with
    | nil => exact absurd (by simpa [countsText] using h.symm) (hbracket hs _)
    | cons n ns =>
      have h : (decimal m).toList ++ ']' :: (countsText ms ++ r) =
          (decimal n).toList ++ ']' :: (countsText ns ++ s) := by
        simpa [countsText] using h
      obtain ⟨rfl, hrest⟩ := decimal_unique (by simp) (by simp) h
      obtain ⟨rfl, rfl⟩ := ih (by simpa using hrest)
      exact ⟨rfl, rfl⟩

/-- The width of an integer type, between angles unless it is open. -/
def angledWidth (width : Int64) : List Char :=
  if width = 0 then [] else '<' :: ((decimal width).toList ++ ['>'])

theorem toList_widthText (name : String) (width : Int64) :
    (widthText name width).toList = name.toList ++ angledWidth width := by
  unfold widthText angledWidth
  split_ifs <;> simp

theorem angledWidth_unique {v w : Int64} {r s : List Char} (hr : ∀ c ∈ r.head?, c ≠ '<')
    (hs : ∀ c ∈ s.head?, c ≠ '<') (h : angledWidth v ++ r = angledWidth w ++ s) :
    v = w ∧ r = s := by
  unfold angledWidth at h
  split_ifs at h with hv hw hw
  · exact ⟨hv.trans hw.symm, by simpa using h⟩
  · have h : r = '<' :: ((decimal w).toList ++ '>' :: s) := by simpa using h
    simp [h] at hr
  · have h : '<' :: ((decimal v).toList ++ '>' :: r) = s := by simpa using h
    simp [← h] at hs
  · have h : (decimal v).toList ++ '>' :: r = (decimal w).toList ++ '>' :: s := by simpa using h
    obtain ⟨hvw, hrest⟩ := decimal_unique (by simp) (by simp) h
    exact ⟨hvw, by simpa using hrest⟩

theorem Ty.elem_legible {elem : Ty} {count : Int64} (h : Legible (Ty.vector elem count).trees) :
    elem.IsLegible := by
  obtain ⟨⟨hself, -⟩, helem⟩ := legible_singleton.mp h
  refine ⟨?_, helem⟩
  by_contra hnone
  rw [Bool.not_eq_true] at hnone
  simp [Node.checkSelf, Ty.checkSelf, hnone] at hself

/-- A legible type that is filled in is a vector of vectors of one of four kinds. -/
theorem Ty.base_cases (t : Ty) (h : t.IsLegible) :
    (∃ w, t.base = .uint w) ∨ (∃ w, t.base = .sint w) ∨ t.base = .clock ∨
      ∃ fs, t.base = .bundle fs ∧ Legible (Field.trees fs) := by
  obtain ⟨hpresent, h⟩ := h
  cases t with
  | absent => simp [Ty.isPresent] at hpresent
  | uint w => exact .inl ⟨w, rfl⟩
  | sint w => exact .inr (.inl ⟨w, rfl⟩)
  | clock => exact .inr (.inr (.inl rfl))
  | vector elem count => exact Ty.base_cases elem (Ty.elem_legible h)
  | bundle fs => exact .inr (.inr (.inr ⟨fs, rfl, (legible_singleton.mp h).2⟩))
  | foreign kind => cases (legible_singleton.mp h).1.1
termination_by structural t

/-- Whether the text of the base of `t` ends where it cannot have a width after it. -/
def Ty.BaseReads (t : Ty) : Prop :=
  ∀ (u : Ty) (r s : List Char), u.IsLegible → (∀ c ∈ r.head?, c ≠ '<') →
    (∀ c ∈ s.head?, c ≠ '<') → t.base.text.toList ++ r = u.base.text.toList ++ s →
      t.base = u.base ∧ r = s

theorem Ty.BaseReads.readsBack {t u : Ty} (ht : t.BaseReads) (hu : u.IsLegible) :
    ReadsBack (fun t => t.text.toList) t u := by
  intro r s hr hs h
  have hcounts (ns : List Int64) {r : List Char} (hr : Stops r) :
      ∀ c ∈ (countsText ns ++ r).head?, c ≠ '<' := by
    cases ns with
    | nil =>
      rintro c hc rfl
      exact absurd (hr _ hc) (by decide)
    | cons n ns => simp [countsText]
  simp only [t.toList_text, u.toList_text, List.append_assoc] at h
  obtain ⟨hbase, hrest⟩ := ht u _ _ hu (hcounts t.counts hr) (hcounts u.counts hs) h
  obtain ⟨hsame, hrs⟩ := countsText_unique hr hs hrest
  refine ⟨?_, hrs⟩
  rw [t.eq_foldl, u.eq_foldl, hbase, hsame]

theorem Field.texts_eq (fs : List Field) : Field.texts fs = fs.map Field.text := by
  induction fs with
  | nil => rfl
  | cons f fs ih =>
    obtain ⟨name, type⟩ := f
    rw [List.map_cons, ← ih, Field.texts, Field.text]

theorem Field.toList_text (f : Field) :
    f.text.toList = f.name.toList ++ ':' :: ' ' :: f.type.text.toList := by
  simp [Field.text]

theorem Field.legible_of_mem {fs : List Field} (h : Legible (Field.trees fs)) {f : Field}
    (hf : f ∈ fs) : isIdentifier f.name ∧ f.type.IsLegible := by
  induction fs with
  | nil => cases hf
  | cons g fs ih =>
    obtain ⟨name, type⟩ := g
    rw [Field.trees, legible_cons] at h
    rcases List.mem_cons.mp hf with rfl | hf
    · have hself : type.isPresent := by
        obtain ⟨-, -, htype⟩ := bind_eq_ok.mp h.1.1
        simpa [requireType] using htype
      exact ⟨by simpa [Node.name?] using h.1.2.2, hself, h.2.1⟩
    · exact ih h.2.2 hf

theorem Field.not_stops {f : Field} (hname : isIdentifier f.name) (r : List Char) :
    ¬ Stops (f.text.toList ++ r) := by
  rw [Field.toList_text, List.append_assoc]
  exact (isWord_identifier hname).not_stops _

theorem Field.readsBack {f g : Field}
    (hf : isIdentifier f.name) (hg : isIdentifier g.name ∧ g.type.IsLegible)
    (htype : f.type.BaseReads) : ReadsBack (fun f => f.text.toList) f g := by
  intro r s hr hs h
  simp only [Field.toList_text, List.append_assoc, List.cons_append] at h
  obtain ⟨hnames, hrest⟩ := identifier_unique hf hg.1 (by simp) (by simp) h
  have hrest : f.type.text.toList ++ r = g.type.text.toList ++ s := by simpa using hrest
  obtain ⟨htypes, hrs⟩ := htype.readsBack hg.2 r s hr hs hrest
  cases f
  cases g
  simp_all

theorem toList_bundle (fs : List Field) :
    (Ty.bundle fs).text.toList =
      '\x7b' :: ((commaSeparated (fs.map Field.text)).toList ++ ['\x7d']) := by
  simp [Ty.text, Field.texts_eq]

mutual

theorem Ty.baseReads (t : Ty) (ht : t.IsLegible) : t.BaseReads := by
  intro u r s hu hr hs h
  have hbase := u.base_cases hu
  obtain ⟨hpresent, ht⟩ := ht
  cases t with
  | absent => simp [Ty.isPresent] at hpresent
  | uint v =>
    rcases hbase with ⟨w, hu⟩ | ⟨w, hu⟩ | hu | ⟨gs, hu, -⟩ <;> rw [hu] at h ⊢ <;>
      simp only [Ty.base, Ty.text, toList_widthText, List.append_assoc] at h
    · obtain ⟨rfl, hrs⟩ := angledWidth_unique hr hs (by simpa using h)
      exact ⟨rfl, hrs⟩
    all_goals simp at h
  | sint v =>
    rcases hbase with ⟨w, hu⟩ | ⟨w, hu⟩ | hu | ⟨gs, hu, -⟩ <;> rw [hu] at h ⊢ <;>
      simp only [Ty.base, Ty.text, toList_widthText, List.append_assoc] at h
    case inr.inl =>
      obtain ⟨rfl, hrs⟩ := angledWidth_unique hr hs (by simpa using h)
      exact ⟨rfl, hrs⟩
    all_goals simp at h
  | clock =>
    rcases hbase with ⟨w, hu⟩ | ⟨w, hu⟩ | hu | ⟨gs, hu, -⟩ <;> rw [hu] at h ⊢ <;>
      simp [Ty.base, Ty.text, toList_widthText] at h
    exact ⟨rfl, h⟩
  | vector elem count =>
    exact Ty.baseReads elem (Ty.elem_legible ht) u r s hu hr hs h
  | bundle fs =>
    have hfs := (legible_singleton.mp ht).2
    rcases hbase with ⟨w, hu⟩ | ⟨w, hu⟩ | hu | ⟨gs, hu, hgs⟩ <;> rw [hu] at h ⊢
    case inr.inr.inr =>
      change (Ty.bundle fs).text.toList ++ r = _ at h
      rw [toList_bundle, toList_bundle] at h
      have h : (commaSeparated (fs.map Field.text)).toList ++ '\x7d' :: r =
          (commaSeparated (gs.map Field.text)).toList ++ '\x7d' :: s := by
        simpa using h
      obtain ⟨rfl, hrs⟩ := commaSeparated_unique
        (fun f hf g hg => Field.readsBack (Field.legible_of_mem hfs hf).1 (Field.legible_of_mem hgs hg)
          (Field.baseReads fs hfs f hf))
        (fun f hf => Field.not_stops (Field.legible_of_mem hfs hf).1)
        (fun g hg => Field.not_stops (Field.legible_of_mem hgs hg).1) (by decide) (by decide) h
      exact ⟨rfl, hrs⟩
    all_goals simp [Ty.base, Ty.text, toList_widthText] at h
  | foreign kind => cases (legible_singleton.mp ht).1.1
termination_by structural t

theorem Field.baseReads (fs : List Field) (hfs : Legible (Field.trees fs)) :
    ∀ f ∈ fs, f.type.BaseReads := by
  cases fs with
  | nil => simp
  | cons g fs =>
    obtain ⟨name, type⟩ := g
    have htype := (Field.legible_of_mem hfs (List.mem_cons_self ..)).2
    have hrest := (legible_cons.mp hfs).2.2
    intro f hf
    rcases List.mem_cons.mp hf with rfl | hf
    · exact Ty.baseReads type htype
    · exact Field.baseReads fs hrest f hf
termination_by structural fs

end

/-- Before a mark a type can be told from any other, and where it ends. -/
theorem Ty.readsBack {t u : Ty} (ht : t.IsLegible) (hu : u.IsLegible) :
    ReadsBack (fun t => t.text.toList) t u :=
  (t.baseReads ht).readsBack hu

/-! ### Expressions -/

/-- What an expression with operands does to them. -/
inductive Form where
  | mux | validIf
  | binary (op : BinaryOp) | compare (op : CompareOp) | unary (op : UnaryOp)
  | pad | shiftLeft | shiftLeftBy | shiftRight | shiftRightBy | bits | head | tail
  deriving DecidableEq

namespace Form

def keyword : Form → String
  | .mux => "mux"
  | .validIf => "validif"
  | .binary op => op.keyword
  | .compare op => op.keyword
  | .unary op => op.keyword
  | .pad => "pad"
  | .shiftLeft => "shl"
  | .shiftLeftBy => "dshl"
  | .shiftRight => "shr"
  | .shiftRightBy => "dshr"
  | .bits => "bits"
  | .head => "head"
  | .tail => "tail"

/-- The number of operands that are expressions. -/
def arity : Form → ℕ
  | .mux => 3
  | .validIf | .binary _ | .compare _ | .shiftLeftBy | .shiftRightBy => 2
  | .unary _ | .pad | .shiftLeft | .shiftRight | .bits | .head | .tail => 1

/-- The expression made of its operands, and of numbers after them. -/
def assemble (F : Form) (es : List Expr) (ns : List Int64) : Expr :=
  let e := fun i => es.getD i .absent
  let n := fun i => ns.getD i 0
  match F with
  | .mux => .mux (e 0) (e 1) (e 2)
  | .validIf => .validIf (e 0) (e 1)
  | .binary op => .binary op (e 0) (e 1)
  | .compare op => .compare op (e 0) (e 1)
  | .unary op => .unary op (e 0)
  | .pad => .pad (e 0) (n 0)
  | .shiftLeft => .shiftLeft (e 0) (n 0) .absent
  | .shiftLeftBy => .shiftLeft (e 0) 0 (e 1)
  | .shiftRight => .shiftRight (e 0) (n 0) .absent
  | .shiftRightBy => .shiftRight (e 0) 0 (e 1)
  | .bits => .bits (e 0) (n 0) (n 1)
  | .head => .head (e 0) (n 0)
  | .tail => .tail (e 0) (n 0)

/-- The forms of the circuit language. -/
def all : List Form :=
  [.mux, .validIf, .pad, .shiftLeft, .shiftLeftBy, .shiftRight, .shiftRightBy, .bits, .head, .tail] ++
    [.add, .sub, .mul, .div, .rem, .and, .or, .xor, .cat].map binary ++
    [.eq, .ne, .lt, .gt, .le, .ge].map compare ++
    [.asUInt, .asSInt, .asClock, .toSigned, .neg, .not].map unary

theorem keyword_inj {F G : Form} (hF : F ∈ all) (hG : G ∈ all) (h : F.keyword = G.keyword) : F = G :=
  List.inj_on_of_nodup_map (f := keyword) (l := all) (by decide +kernel) hF hG h

/-- A keyword is a word in small letters at its beginning, as no type is. -/
theorem keyword_word {F : Form} (hF : F ∈ all) :
    IsWord F.keyword.toList ∧ ∃ c ∈ F.keyword.toList.head?, c.isLower := by
  have hall : ∀ F ∈ all, IsWord F.keyword.toList ∧ F.keyword.toList.head?.any Char.isLower := by
    decide +kernel
  obtain ⟨hword, hhead⟩ := hall F hF
  exact ⟨hword, (Option.any_eq_true _ _).mp hhead⟩

theorem binary_mem {op : BinaryOp} (h : op.isKnown) : binary op ∈ all := by
  cases op <;> first | decide | cases h

theorem compare_mem {op : CompareOp} (h : op.isKnown) : compare op ∈ all := by
  cases op <;> first | decide | cases h

theorem unary_mem {op : UnaryOp} (h : op.isKnown) : unary op ∈ all := by
  cases op <;> first | decide | cases h

end Form

namespace Expr

/-- Expressions as they are written: a name, a literal, or a form with operands and numbers. -/
inductive Spelled : Expr → Prop
  | name (x : String) (hx : isIdentifier x) : Spelled (.ref x)
  | literal (v : Int64) (t : Ty) (hinteger : ∃ w, t = .uint w ∨ t = .sint w)
    (ht : Legible t.trees) : Spelled (.literal v t)
  | form (F : Form) (es : List Expr) (ns : List Int64) (hknown : F ∈ Form.all)
    (harity : es.length = F.arity)
    (hwritten : (F.assemble es ns).text = callText F.keyword (es.map Expr.text ++ ns.map decimal))
    (hes : ∀ e ∈ es, Spelled e) : Spelled (F.assemble es ns)

theorem literal_type {v : Int64} {t : Ty} (h : checkLiteral v t = .ok ()) :
    ∃ w, t = .uint w ∨ t = .sint w := by
  cases t with
  | uint w => exact ⟨w, .inl rfl⟩
  | sint w => exact ⟨w, .inr rfl⟩
  | _ => cases h

/-- A legible expression is written as a name, a literal or a form. -/
theorem spelled {e : Expr} (h : e.IsLegible) : e.Spelled := by
  obtain ⟨hpresent, h⟩ := h
  have haccepted : e.Accepted := h.1
  induction e with
  | absent => simp [isPresent] at hpresent
  | ref x =>
    have hname := (legible_singleton.mp h).1.2.2
    exact .name x (by simpa [Node.name?] using hname)
  | literal v t =>
    have htype := literal_type ((accepted_literal v t).mp haccepted).1
    exact .literal v t htype (legible_singleton.mp h).2
  | mux sel a b ihsel iha ihb =>
    obtain ⟨⟨hsel, ha, hb⟩, -⟩ := (accepted_mux sel a b).mp haccepted
    obtain ⟨hsa, hb'⟩ := legible_append.mp (legible_singleton.mp h).2
    obtain ⟨hsel', ha'⟩ := legible_append.mp hsa
    exact .form .mux [sel, a, b] [] (by decide) rfl rfl
      (by simp [ihsel hsel hsel' hsel'.1, iha ha ha' ha'.1, ihb hb hb' hb'.1])
  | validIf valid a ihvalid iha =>
    obtain ⟨⟨hvalid, ha⟩, -⟩ := (accepted_validIf valid a).mp haccepted
    obtain ⟨hvalid', ha'⟩ := legible_append.mp (legible_singleton.mp h).2
    exact .form .validIf [valid, a] [] (by decide) rfl rfl
      (by simp [ihvalid hvalid hvalid' hvalid'.1, iha ha ha' ha'.1])
  | binary op a b iha ihb =>
    obtain ⟨⟨hop, ha, hb⟩, -⟩ := (accepted_binary op a b).mp haccepted
    obtain ⟨ha', hb'⟩ := legible_append.mp (legible_singleton.mp h).2
    exact .form (.binary op) [a, b] [] (Form.binary_mem hop) rfl rfl
      (by simp [iha ha ha' ha'.1, ihb hb hb' hb'.1])
  | compare op a b iha ihb =>
    obtain ⟨⟨hop, ha, hb⟩, -⟩ := (accepted_compare op a b).mp haccepted
    obtain ⟨ha', hb'⟩ := legible_append.mp (legible_singleton.mp h).2
    exact .form (.compare op) [a, b] [] (Form.compare_mem hop) rfl rfl
      (by simp [iha ha ha' ha'.1, ihb hb hb' hb'.1])
  | unary op a iha =>
    obtain ⟨⟨hop, ha⟩, ha'⟩ := (accepted_unary op a).mp haccepted
    exact .form (.unary op) [a] [] (Form.unary_mem hop) rfl rfl
      (by simp [iha ha (legible_singleton.mp h).2 ha'])
  | pad a width iha =>
    obtain ⟨⟨ha, -⟩, ha'⟩ := (accepted_pad a width).mp haccepted
    exact .form .pad [a] [width] (by decide) rfl rfl
      (by simp [iha ha (legible_singleton.mp h).2 ha'])
  | shiftLeft a places amount iha ihamount =>
    obtain ⟨⟨hplaces, ha, -⟩, -⟩ := (accepted_shiftLeft a amount places).mp haccepted
    obtain ⟨ha', hamount'⟩ := legible_append.mp (legible_singleton.mp h).2
    -- one constructor for two forms, of which the check lets each write all that it has
    by_cases hamount : amount.isPresent
    · obtain rfl := hplaces hamount
      exact .form .shiftLeftBy [a, amount] [] (by decide) rfl
        (if_pos hamount)
        (by simp [iha ha ha' ha'.1, ihamount hamount hamount' hamount'.1])
    · obtain rfl : amount = .absent := by simpa [isPresent] using hamount
      exact .form .shiftLeft [a] [places] (by decide) rfl rfl (by simp [iha ha ha' ha'.1])
  | shiftRight a places amount iha ihamount =>
    obtain ⟨⟨hplaces, ha, -⟩, -⟩ := (accepted_shiftRight a amount places).mp haccepted
    obtain ⟨ha', hamount'⟩ := legible_append.mp (legible_singleton.mp h).2
    by_cases hamount : amount.isPresent
    · obtain rfl := hplaces hamount
      exact .form .shiftRightBy [a, amount] [] (by decide) rfl
        (if_pos hamount)
        (by simp [iha ha ha' ha'.1, ihamount hamount hamount' hamount'.1])
    · obtain rfl : amount = .absent := by simpa [isPresent] using hamount
      exact .form .shiftRight [a] [places] (by decide) rfl rfl (by simp [iha ha ha' ha'.1])
  | bits a hi lo iha =>
    obtain ⟨⟨ha, -⟩, ha'⟩ := (accepted_bits a hi lo).mp haccepted
    exact .form .bits [a] [hi, lo] (by decide) rfl rfl
      (by simp [iha ha (legible_singleton.mp h).2 ha'])
  | head a count iha =>
    obtain ⟨⟨ha, -⟩, ha'⟩ := (accepted_head a count).mp haccepted
    exact .form .head [a] [count] (by decide) rfl rfl
      (by simp [iha ha (legible_singleton.mp h).2 ha'])
  | tail a count iha =>
    obtain ⟨⟨ha, -⟩, ha'⟩ := (accepted_tail a count).mp haccepted
    exact .form .tail [a] [count] (by decide) rfl rfl
      (by simp [iha ha (legible_singleton.mp h).2 ha'])
  | leaf l => exact absurd haccepted (not_accepted_leaf l)

theorem integer_present {t : Ty} (h : ∃ w, t = .uint w ∨ t = .sint w) : t.isPresent := by
  obtain ⟨w, rfl | rfl⟩ := h <;> rfl

/-- An integer type is a word with a capital at its beginning. -/
theorem integer_word {t : Ty} (h : ∃ w, t = .uint w ∨ t = .sint w) :
    IsWord t.text.toList ∧ ∀ c ∈ t.text.toList.head?, c.isLower = false := by
  have hwidth (w : Int64) : ∀ c ∈ angledWidth w, isWordChar c := by
    unfold angledWidth
    split_ifs with hw
    · simp
    · simp only [List.mem_cons, List.mem_append, List.not_mem_nil, or_false]
      rintro c (rfl | hc | rfl)
      · decide
      · exact (isWord_decimal w).2 c hc
      · decide
  obtain ⟨w, rfl | rfl⟩ := h <;> simp only [Ty.text, toList_widthText]
  · exact ⟨IsWord.append (by decide) (hwidth w), by simp⟩
  · exact ⟨IsWord.append (by decide) (hwidth w), by simp⟩

theorem literal_text (v : Int64) (t : Ty) :
    (literal v t).text = callText t.text [decimal v] := rfl

theorem operandText_of_mem {es : List Expr} (hes : ∀ e ∈ es, OperandText e.text) (ns : List Int64) :
    ∀ x ∈ es.map Expr.text ++ ns.map decimal, OperandText x := by
  simp only [List.mem_append, List.mem_map]
  rintro x (⟨e, he, rfl⟩ | ⟨n, -, rfl⟩)
  · exact hes e he
  · exact .word _ (isWord_decimal n)

theorem operandText_number (n : Int64) : ∀ x ∈ [decimal n], OperandText x := by
  simpa using OperandText.word _ (isWord_decimal n)

theorem Spelled.operandText {e : Expr} (he : e.Spelled) : OperandText e.text := by
  induction he with
  | name x hx => exact .word x (isWord_identifier hx)
  | literal v t hinteger ht =>
    rw [literal_text]
    exact .call _ _ (integer_word hinteger).1 (operandText_number v)
  | form F es ns hknown harity hwritten hes ih =>
    rw [hwritten]
    exact .call _ _ (Form.keyword_word hknown).1 (operandText_of_mem ih ns)

theorem name_ne_callText {x op : String} {xs : List String} (hx : isIdentifier x)
    (hop : IsWord op.toList) : x ≠ callText op xs := by
  intro h
  exact word_ne_call (r := []) (s := []) (isWord_identifier hx) hop (by simp) (by rw [h])

/-- The text of a literal begins with a capital, that of a form does not. -/
theorem literal_ne_form {t : Ty} {F : Form} (hinteger : ∃ w, t = .uint w ∨ t = .sint w)
    (hF : F ∈ Form.all) : t.text ≠ F.keyword := by
  intro h
  obtain ⟨-, c, hc, hlower⟩ := Form.keyword_word hF
  rw [← h] at hc
  simp [(integer_word hinteger).2 c hc] at hlower

/-- Expressions that are written alike are the same. -/
theorem Spelled.text_inj {e f : Expr} (he : e.Spelled) (hf : f.Spelled) (h : e.text = f.text) :
    e = f := by
  induction he generalizing f with
  | name x hx =>
    cases hf with
    | name y hy => exact congrArg Expr.ref h
    | literal v t hinteger ht =>
      rw [literal_text] at h
      exact absurd h (name_ne_callText hx (integer_word hinteger).1)
    | form G fs ms hknown harity hwritten hfs =>
      rw [hwritten] at h
      exact absurd h (name_ne_callText hx (Form.keyword_word hknown).1)
  | literal v t hinteger ht =>
    rw [literal_text] at h
    cases hf with
    | name y hy => exact absurd h.symm (name_ne_callText hy (integer_word hinteger).1)
    | literal w u hinteger' hu =>
      obtain ⟨htypes, hvalues⟩ := callText_inj (integer_word hinteger).1 (integer_word hinteger').1
        (operandText_number v) (operandText_number w) h
      obtain rfl := (Ty.readsBack ⟨integer_present hinteger, ht⟩
        ⟨integer_present hinteger', hu⟩).eq_of_text (by rw [htypes])
      rw [decimal_injective (List.singleton_inj.mp hvalues)]
    | form G fs ms hknown harity hwritten hfs =>
      rw [hwritten] at h
      obtain ⟨hops, -⟩ := callText_inj (integer_word hinteger).1 (Form.keyword_word hknown).1
        (operandText_number v) (operandText_of_mem (fun f hf => (hfs f hf).operandText) ms) h
      exact absurd hops (literal_ne_form hinteger hknown)
  | form F es ns hknown harity hwritten hes ih =>
    rw [hwritten] at h
    have htexts := operandText_of_mem (fun e he => (hes e he).operandText) ns
    cases hf with
    | name y hy => exact absurd h.symm (name_ne_callText hy (Form.keyword_word hknown).1)
    | literal w u hinteger' hu =>
      obtain ⟨hops, -⟩ := callText_inj (Form.keyword_word hknown).1 (integer_word hinteger').1 htexts
        (operandText_number w) h
      exact absurd hops.symm (literal_ne_form hinteger' hknown)
    | form G fs ms hknown' harity' hwritten' hfs =>
      rw [hwritten'] at h
      obtain ⟨hops, hitems⟩ := callText_inj (Form.keyword_word hknown).1
        (Form.keyword_word hknown').1 htexts (operandText_of_mem (fun f hf => (hfs f hf).operandText) ms) h
      obtain rfl := Form.keyword_inj hknown hknown' hops
      -- forms that are the same have as many operands, so that these and the numbers part alike
      obtain ⟨hexprs, hnumbers⟩ := List.append_inj hitems (by simp [harity, harity'])
      obtain rfl : ns = ms := decimal_injective.list_map hnumbers
      obtain rfl : es = fs := map_inj_of_mem (fun e he f hf => ih e he (hfs f hf)) hexprs
      rfl

/-- Before a mark an expression can be told from any other, and where it ends. -/
theorem readsBack {e f : Expr} (he : e.IsLegible) (hf : f.IsLegible) :
    ReadsBack (fun e => e.text.toList) e f := by
  intro r s hr hs h
  have he := spelled he
  have hf := spelled hf
  obtain ⟨htexts, hrs⟩ := he.operandText.readsBack hf.operandText r s hr hs h
  exact ⟨he.text_inj hf htexts, hrs⟩

end Expr

end GuardedRtl.Rtl
