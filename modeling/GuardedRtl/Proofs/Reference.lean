import GuardedRtl.Proofs.Words

/-! Expressions over unbounded numbers. `Expr.exact` follows the width rules of the circuit language
with no limit on widths; `Expr.Evaluable` says when 64 bits are enough for all of an expression. -/

namespace GuardedRtl.Rtl

/-- A number and how many bits hold it. -/
structure Number where
  value : ℕ
  width : ℕ
  deriving DecidableEq

namespace Number

def ofBool (b : Bool) : Number := ⟨b.toNat, 1⟩

/-- A literal of open width takes as many bits as it needs, and at least one. -/
def literal (value : Int64) : Ty → Number
  | .uint width =>
    ⟨value.toNatClampNeg,
      if width = 0 then max value.toNatClampNeg.size 1 else width.toNatClampNeg⟩
  | _ => ⟨0, 0⟩

def mux (s a b : Number) : Number :=
  ⟨if s.value ≠ 0 then a.value else b.value, max a.width b.width⟩

def validIf (valid a : Number) : Number := ⟨if valid.value ≠ 0 then a.value else 0, a.width⟩

def binary (op : BinaryOp) (a b : Number) : Number :=
  let width := max a.width b.width
  match op with
  | .add => ⟨a.value + b.value, width + 1⟩
  | .sub => ⟨(((a.value : ℤ) - b.value) % 2 ^ (width + 1)).toNat, width + 1⟩
  | .mul => ⟨a.value * b.value, a.width + b.width⟩
  | .div => ⟨if b.value = 0 then 0 else a.value / b.value, a.width⟩
  | .rem => ⟨if b.value = 0 then 0 else a.value % b.value, min a.width b.width⟩
  | .and => ⟨a.value &&& b.value, width⟩
  | .or => ⟨a.value ||| b.value, width⟩
  | .xor => ⟨a.value ^^^ b.value, width⟩
  | .cat => ⟨a.value * 2 ^ b.width + b.value, a.width + b.width⟩
  | .unknown _ => ⟨0, 0⟩

def compare (op : CompareOp) (a b : Number) : Number :=
  match op with
  | .eq => ofBool (a.value = b.value)
  | .ne => ofBool (a.value ≠ b.value)
  | .lt => ofBool (a.value < b.value)
  | .gt => ofBool (b.value < a.value)
  | .le => ofBool (a.value ≤ b.value)
  | .ge => ofBool (b.value ≤ a.value)
  | .unknown _ => ⟨0, 0⟩

def unary (op : UnaryOp) (a : Number) : Number :=
  match op with
  | .asUInt | .asClock => a
  | .not => ⟨2 ^ a.width - 1 - a.value, a.width⟩
  | _ => ⟨0, 0⟩

def pad (a : Number) (width : ℕ) : Number := ⟨a.value, max a.width width⟩

def shiftLeft (a : Number) (places : ℕ) : Number := ⟨a.value * 2 ^ places, a.width + places⟩

/-- Room is made for the largest amount that the width of `n` allows. -/
def shiftLeftBy (a n : Number) : Number := ⟨a.value * 2 ^ n.value, a.width + 2 ^ n.width - 1⟩

def shiftRight (a : Number) (places : ℕ) : Number :=
  ⟨a.value / 2 ^ places, max (a.width - places) 1⟩

def shiftRightBy (a n : Number) : Number := ⟨a.value / 2 ^ n.value, a.width⟩

def bits (a : Number) (hi lo : ℕ) : Number :=
  ⟨a.value / 2 ^ lo % 2 ^ (hi - lo + 1), hi - lo + 1⟩

def head (a : Number) (count : ℕ) : Number := ⟨a.value / 2 ^ (a.width - count), count⟩

def tail (a : Number) (count : ℕ) : Number :=
  ⟨a.value % 2 ^ (a.width - count), a.width - count⟩

end Number

/-- What the names and the leaves of an expression stand for. -/
structure Reading where
  name : String → Option Number
  leaf : Leaf → Option Number

def Value.number (v : Value) : Number := ⟨v.bits.toNat, v.width.toNatClampNeg⟩

/-- At most 64 bits, and none above the width. -/
def Value.WellFormed (v : Value) : Prop :=
  0 ≤ v.width ∧ v.width ≤ 64 ∧ v.bits.toNat < 2 ^ v.width.toNatClampNeg

instance (v : Value) : Decidable v.WellFormed := inferInstanceAs (Decidable (_ ∧ _ ∧ _))

def Env.reading (env : Env) : Reading := ⟨fun x => (env x).map Value.number, fun _ => none⟩

/-- The value of an expression over unbounded numbers. -/
def Expr.exact (r : Reading) : Expr → Number
  | .absent => ⟨0, 0⟩
  | .ref name => (r.name name).getD ⟨0, 0⟩
  | .literal value type => .literal value type
  | .mux sel a b => .mux (sel.exact r) (a.exact r) (b.exact r)
  | .validIf valid a => .validIf (valid.exact r) (a.exact r)
  | .binary op a b => .binary op (a.exact r) (b.exact r)
  | .compare op a b => .compare op (a.exact r) (b.exact r)
  | .unary op e => .unary op (e.exact r)
  | .pad e width => .pad (e.exact r) width.toNatClampNeg
  | .shiftLeft e places amount =>
    if amount.isPresent then .shiftLeftBy (e.exact r) (amount.exact r)
    else .shiftLeft (e.exact r) places.toNatClampNeg
  | .shiftRight e places amount =>
    if amount.isPresent then .shiftRightBy (e.exact r) (amount.exact r)
    else .shiftRight (e.exact r) places.toNatClampNeg
  | .bits e hi lo => .bits (e.exact r) hi.toNatClampNeg lo.toNatClampNeg
  | .head e count => .head (e.exact r) count.toNatClampNeg
  | .tail e count => .tail (e.exact r) count.toNatClampNeg
  | .leaf l => (r.leaf l).getD ⟨0, 0⟩

/-- An expression and all that stands below it. -/
def Expr.parts : Expr → List Expr
  | .absent => []
  | .ref name => [.ref name]
  | .literal value type => [.literal value type]
  | .mux sel a b => .mux sel a b :: (sel.parts ++ a.parts ++ b.parts)
  | .validIf valid a => .validIf valid a :: (valid.parts ++ a.parts)
  | .binary op a b => .binary op a b :: (a.parts ++ b.parts)
  | .compare op a b => .compare op a b :: (a.parts ++ b.parts)
  | .unary op e => .unary op e :: e.parts
  | .pad e width => .pad e width :: e.parts
  | .shiftLeft e places amount => .shiftLeft e places amount :: (e.parts ++ amount.parts)
  | .shiftRight e places amount => .shiftRight e places amount :: (e.parts ++ amount.parts)
  | .bits e hi lo => .bits e hi lo :: e.parts
  | .head e count => .head e count :: e.parts
  | .tail e count => .tail e count :: e.parts
  | .leaf l => [.leaf l]

/-- Whether `P` holds of all that stands directly below an expression. -/
def Expr.AllOperands (P : Expr → Prop) : Expr → Prop
  | .mux sel a b => P sel ∧ P a ∧ P b
  | .validIf valid a => P valid ∧ P a
  | .binary _ a b | .compare _ a b => P a ∧ P b
  | .unary _ e | .pad e _ | .bits e _ _ | .head e _ | .tail e _ => P e
  | .shiftLeft e _ amount | .shiftRight e _ amount => P e ∧ P amount
  | _ => True

/-- What holds of all parts holds of the whole and of all parts of its operands. -/
theorem Expr.forall_parts {P : Expr → Prop} {e : Expr} (h : e.isPresent) :
    (∀ p ∈ e.parts, P p) ↔ P e ∧ e.AllOperands fun o => ∀ p ∈ o.parts, P p := by
  cases e with
  | absent => cases h
  | _ => simp [Expr.parts, Expr.AllOperands, or_imp, forall_and]

/-- Names and leaves are known, nothing is signed, and bits are taken from where there are some. -/
def Expr.Supported (r : Reading) : Expr → Prop
  | .ref name => (r.name name).isSome
  | .leaf l => (r.leaf l).isSome
  | .literal _ (.sint _) => False
  | .unary op _ => op ≠ .asSInt ∧ op ≠ .toSigned ∧ op ≠ .neg
  | .bits e hi _ => hi.toInt < (e.exact r).width
  | .head e count => count.toInt ≤ (e.exact r).width
  | .tail e count => count.toInt ≤ (e.exact r).width
  | _ => True

instance (r : Reading) : (e : Expr) → Decidable (e.Supported r)
  | .ref name => inferInstanceAs (Decidable ((r.name name).isSome = true))
  | .leaf l => inferInstanceAs (Decidable ((r.leaf l).isSome = true))
  | .literal _ (.sint _) => inferInstanceAs (Decidable False)
  | .literal _ .absent | .literal _ (.uint _) | .literal _ .clock | .literal _ (.vector _ _)
  | .literal _ (.bundle _) | .literal _ (.foreign _) => inferInstanceAs (Decidable True)
  | .unary op _ => inferInstanceAs (Decidable (op ≠ .asSInt ∧ op ≠ .toSigned ∧ op ≠ .neg))
  | .bits e hi _ => inferInstanceAs (Decidable (hi.toInt < (e.exact r).width))
  | .head e count => inferInstanceAs (Decidable (count.toInt ≤ (e.exact r).width))
  | .tail e count => inferInstanceAs (Decidable (count.toInt ≤ (e.exact r).width))
  | .absent | .mux _ _ _ | .validIf _ _ | .binary _ _ _ | .compare _ _ _ | .pad _ _
  | .shiftLeft _ _ _ | .shiftRight _ _ _ => inferInstanceAs (Decidable True)

/-- Every part is supported and its exact value takes at most 64 bits. -/
def Expr.Evaluable (r : Reading) (e : Expr) : Prop :=
  ∀ p ∈ e.parts, p.Supported r ∧ (p.exact r).width ≤ 64

instance (r : Reading) (e : Expr) : Decidable (e.Evaluable r) :=
  inferInstanceAs (Decidable (∀ p ∈ e.parts, p.Supported r ∧ (p.exact r).width ≤ 64))

theorem Expr.evaluable_iff {r : Reading} {e : Expr} (h : e.isPresent) :
    e.Evaluable r ↔ (e.Supported r ∧ (e.exact r).width ≤ 64) ∧ e.AllOperands (Expr.Evaluable r) :=
  Expr.forall_parts h

theorem Expr.evaluable_absent (r : Reading) : Expr.absent.Evaluable r :=
  List.forall_mem_nil _

/-- Whether no part is a static shift to the left by more than `2 ^ 62` places. -/
def Expr.ModestShifts (e : Expr) : Prop :=
  ∀ a n, .shiftLeft a n .absent ∈ e.parts → n.toInt ≤ 2 ^ 62

instance (e : Expr) : Decidable e.ModestShifts :=
  decidable_of_iff (∀ p ∈ e.parts, (match p with
    | .shiftLeft _ n .absent => decide (n.toInt ≤ 2 ^ 62)
    | _ => true) = true) (by
    constructor
    · exact fun h a n hmem => by simpa using h _ hmem
    · intro h p hp
      split
      · exact decide_eq_true (h _ _ hp)
      · rfl)

end GuardedRtl.Rtl
