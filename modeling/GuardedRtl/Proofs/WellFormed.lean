import GuardedRtl.Proofs.Listing
import GuardedRtl.Proofs.Words

/-! The laws of the circuit language. A law is a condition on one node, with what is said of a node
that breaks it, and the laws for a node are listed in the order in which they are looked at. Numbers
in them are integers, without a bound. Main statement: the check of a tree succeeds when every node of
it keeps all its laws, and otherwise says what belongs to the first broken law of the first node, in
pre-order, that breaks one. -/

namespace GuardedRtl.Rtl

/-- A condition, and what is said where it does not hold. -/
structure Law where
  holds : Prop
  complaint : Error

namespace Law

def filled (kind field : String) (isPresent : Bool) : Law := ⟨isPresent, missing kind field⟩

def named (kind field name : String) : Law := ⟨name ≠ "", missing kind field⟩

def fitting (kind field : String) (condition : Prop) : Law := ⟨condition, mismatch kind field⟩

def ranged (kind : String) (defect : Defect) (condition : Prop) : Law :=
  ⟨condition, .invalid kind defect⟩

/-- A law that nothing keeps. -/
def unmet (complaint : Error) : Law := ⟨False, complaint⟩

end Law

open Law

/-- No name stands twice. -/
def distinctLaws (names : List String) : List Law :=
  names.mapIdx fun i name => ⟨name ∉ names.take i, .construction "Bundle" name .duplicateName⟩

/-- Together these laws say that the names are pairwise distinct. -/
theorem distinctLaws_hold (names : List String) :
    (∀ r ∈ distinctLaws names, r.holds) ↔ names.Nodup := by
  have hlaws : (∀ r ∈ distinctLaws names, r.holds) ↔
      ∀ i (h : i < names.length), names[i] ∉ names.take i := by
    simp only [distinctLaws, List.mem_mapIdx]
    constructor
    · exact fun h i hi => h _ ⟨i, hi, rfl⟩
    · rintro h _ ⟨i, hi, rfl⟩
      exact h i hi
  rw [hlaws, List.nodup_iff_pairwise_ne, List.pairwise_iff_getElem]
  simp only [List.mem_take_iff_getElem]
  constructor
  · intro h i j hi hj hij heq
    exact h j hj ⟨i, by omega, heq⟩
  · rintro h j hj ⟨i, hi, heq⟩
    exact h i j (by omega) hj (by omega) heq

/-- The type of a literal has the value among its numbers; an open width leaves all of them. -/
def literalLaws (value : Int64) : Ty → List Law
  | .absent => [filled "Literal" "Type" false]
  | .uint width =>
    [ranged "Literal" (.negativeUnsigned value) (0 ≤ value.toInt),
      ranged "Literal" (.literalTooWide value width)
        (0 < width.toInt → value.toInt < 2 ^ width.toInt.toNat)]
  | .sint width =>
    [ranged "Literal" (.literalTooWide value width)
      (0 < width.toInt → -2 ^ (width.toInt.toNat - 1) ≤ value.toInt ∧
        value.toInt < 2 ^ (width.toInt.toNat - 1))]
  | _ => [fitting "Literal" "Type" False]

def countedLaws (kind : String) (e : Expr) (n : Int64) : List Law :=
  [filled kind "E" e.isPresent, ranged kind (.negativeArgument n) (0 ≤ n.toInt)]

/-- A shift by the value of an operand is not also one by a number of places. -/
def shiftLaws (kind : String) (e : Expr) (places : Int64) (amount : Expr) : List Law :=
  fitting kind "N" (amount.isPresent → places.toInt = 0) :: countedLaws kind e places

def Ty.laws : Ty → List Law
  | .absent => []
  | .uint width => [ranged "UInt" (.negativeWidth width) (0 ≤ width.toInt)]
  | .sint width => [ranged "SInt" (.negativeWidth width) (0 ≤ width.toInt)]
  | .clock => []
  | .vector elem count =>
    [filled "Vector" "Elem" elem.isPresent,
      ranged "Vector" (.negativeCount count) (0 ≤ count.toInt)]
  | .bundle fields => distinctLaws (fields.map Field.name)
  | .foreign kind => [unmet (.unhandled .check kind)]

def Expr.laws : Expr → List Law
  | .absent => []
  | .ref name => [named "Ref" "Name" name]
  | .literal value type => literalLaws value type
  | .mux sel a b =>
    [filled "Mux" "Sel" sel.isPresent, filled "Mux" "A" a.isPresent, filled "Mux" "B" b.isPresent]
  | .validIf valid a => [filled "ValidIf" "Valid" valid.isPresent, filled "ValidIf" "A" a.isPresent]
  | .binary op a b =>
    [fitting "BinOp" "Op" op.isKnown, filled "BinOp" "E1" a.isPresent, filled "BinOp" "E2" b.isPresent]
  | .compare op a b =>
    [fitting "Cmp" "Op" op.isKnown, filled "Cmp" "E1" a.isPresent, filled "Cmp" "E2" b.isPresent]
  | .unary op e => [fitting "UnOp" "Op" op.isKnown, filled "UnOp" "E" e.isPresent]
  | .pad e width => countedLaws "Pad" e width
  | .shiftLeft e places amount => shiftLaws "ShiftLeft" e places amount
  | .shiftRight e places amount => shiftLaws "ShiftRight" e places amount
  | .bits e hi lo =>
    [filled "Extract" "E" e.isPresent,
      ranged "Extract" (.negativeLowBit lo) (0 ≤ lo.toInt),
      ranged "Extract" (.bitsReversed hi lo) (lo.toInt ≤ hi.toInt)]
  | .head e count => countedLaws "Head" e count
  | .tail e count => countedLaws "Tail" e count
  | .leaf l => [unmet (.unhandled .check l.kind)]

def Stmt.laws : Stmt → List Law
  | .absent => []
  | .connect lhs rhs => [named "Connect" "Lhs" lhs, filled "Connect" "Rhs" rhs.isPresent]
  | .register name type clock _ =>
    [named "Register" "Name" name, filled "Register" "Type" type.isPresent,
      filled "Register" "Clock" clock.isPresent]
  | .wire name type =>
    [named "WireDeclaration" "Name" name, filled "WireDeclaration" "Type" type.isPresent]
  | .printf clock condition _ args =>
    [filled "PrintF" "Args" (args.all Expr.isPresent), filled "PrintF" "Clock" clock.isPresent,
      filled "PrintF" "Condition" condition.isPresent]
  | .stop clock condition _ =>
    [filled "Stop" "Clock" clock.isPresent, filled "Stop" "Condition" condition.isPresent]
  | .foreign kind => [unmet (.unhandled .check kind)]

/-- The laws for a node, as far as its own fields go. -/
def Node.laws : Node → List Law
  | .type t => t.laws
  | .field f => [named "Field" "Name" f.name, filled "Field" "Type" f.type.isPresent]
  | .expr e => e.laws
  | .stmt s => s.laws
  | .reset r => [filled "Reset" "Enable" r.enable.isPresent, filled "Reset" "Value" r.value.isPresent]
  | .port p =>
    [named "Port" "Name" p.name, filled "Port" "Type" p.type.isPresent,
      fitting "Port" "Dir" p.dir.isKnown]
  | .module m =>
    [named "Module" "Name" m.name, filled "Module" "Statements" (m.statements.all Stmt.isPresent)]
  | .circuit c => [named "Circuit" "Name" c.name]

def Node.WellFormed (n : Node) : Prop := ∀ r ∈ n.laws, r.holds

/-- What is said of a node is what belongs to the first law that it breaks. -/
def Node.Breaks (n : Node) (err : Error) : Prop :=
  ∃ kept r rest, n.laws = kept ++ r :: rest ∧ (∀ k ∈ kept, k.holds) ∧ ¬ r.holds ∧ r.complaint = err

/-! Deciding a list of laws -/

/-- The outcome of going through laws in order, up to the first that is broken. -/
inductive Decides : List Law → Except Error Unit → Prop
  | nil : Decides [] (.ok ())
  | kept {r : Law} {rs : List Law} {x : Except Error Unit} (h : r.holds) (hx : Decides rs x) :
      Decides (r :: rs) x
  | broken {r : Law} {rs : List Law} (h : ¬ r.holds) : Decides (r :: rs) (.error r.complaint)

namespace Decides

variable {r : Law} {rs ss : List Law} {x y : Except Error Unit}

theorem eq_ok_iff (h : Decides rs x) : x = .ok () ↔ ∀ r ∈ rs, r.holds := by
  induction h with
  | nil => simp
  | kept h _ ih => rw [ih, List.forall_mem_cons, and_iff_right h]
  | broken h => simp [h]

theorem eq_error_iff {err : Error} (h : Decides rs x) :
    x = .error err ↔ ∃ kept r rest, rs = kept ++ r :: rest ∧ (∀ k ∈ kept, k.holds) ∧
      ¬ r.holds ∧ r.complaint = err := by
  induction h with
  | nil => simp
  | @kept r rs x hr _ ih =>
    rw [ih]
    constructor
    · rintro ⟨kept, q, rest, rfl, hkept, hq⟩
      exact ⟨r :: kept, q, rest, rfl, List.forall_mem_cons.mpr ⟨hr, hkept⟩, hq⟩
    · rintro ⟨kept, q, rest, heq, hkept, hq⟩
      cases kept with
      | nil =>
        cases heq
        exact absurd hr hq.1
      | cons k kept =>
        cases heq
        exact ⟨kept, q, rest, rfl, (List.forall_mem_cons.mp hkept).2, hq⟩
  | @broken r rs hr =>
    constructor
    · rintro ⟨⟩
      exact ⟨[], r, rs, rfl, by simp, hr, rfl⟩
    · rintro ⟨kept, q, rest, heq, hkept, hq⟩
      cases kept with
      | nil =>
        cases heq
        rw [hq.2]
      | cons k kept =>
        cases heq
        exact absurd (hkept r List.mem_cons_self) hr

theorem ite {c : Prop} [Decidable c] (hc : c ↔ r.holds) (hx : Decides rs x) :
    Decides (r :: rs) (if c then x else .error r.complaint) := by
  split_ifs with h
  · exact .kept (hc.mp h) hx
  · exact .broken (mt hc.mpr h)

theorem ite_not {c : Prop} [Decidable c] (hc : c ↔ ¬ r.holds) (hx : Decides rs x) :
    Decides (r :: rs) (if c then .error r.complaint else x) := by
  split_ifs with h
  · exact .broken (hc.mp h)
  · exact .kept (not_not.mp (mt hc.mpr h)) hx

/-- The last law of a list, where its condition is what is asked. -/
theorem last {c : Prop} [Decidable c] (hc : c ↔ r.holds) :
    Decides [r] (if c then .ok () else .error r.complaint) :=
  .ite hc .nil

theorem bind (hx : Decides rs x) (hy : Decides ss y) :
    Decides (rs ++ ss) (do x; y) := by
  induction hx with
  | nil => exact hy
  | kept h _ ih => exact .kept h ih
  | broken h => exact .broken h

end Decides

/-! Numbers and words -/

theorem lt_zero_iff (n : Int64) : n < 0 ↔ ¬ 0 ≤ n.toInt := by
  rw [Int64.lt_iff_toInt_lt, not_le]
  rfl

theorem toInt_signedLimit {width : Int64} {k : ℕ} (h : width.toInt = k + 1) (hk : k < 63) :
    (signedLimit width).toInt = 2 ^ k := by
  have hplaces : (width - 1).toInt = k := by
    have hone : (1 : Int64).toInt = 1 := rfl
    rw [toInt_sub] <;> omega
  have hmod : ((width - 1).toBitVec.smod 64).toNat = k := by
    have hint : ((width - 1).toBitVec.smod 64).toInt = k := by
      rw [BitVec.toInt_smod, show (width - 1).toBitVec.toInt = k from hplaces]
      exact Int.fmod_eq_of_lt (by omega) (by change (k : ℤ) < 64; omega)
    exact toNat_toUInt64 (n := ⟨⟨(width - 1).toBitVec.smod 64⟩⟩) hint
  change ((1#64 : BitVec 64) <<< ((width - 1).toBitVec.smod 64)).toInt = 2 ^ k
  rw [BitVec.shiftLeft_eq', hmod, ← BitVec.twoPow_eq, BitVec.toInt_twoPow, if_neg (by omega),
    if_neg (by omega)]

theorem toInt_neg_signedLimit {width : Int64} {k : ℕ} (h : width.toInt = k + 1) (hk : k < 63) :
    (-signedLimit width).toInt = -2 ^ k := by
  have hlimit := toInt_signedLimit h hk
  have hpow : (2 : ℤ) ^ k ≤ 2 ^ 62 := pow_le_pow_right₀ (by norm_num) (by omega)
  have hpos : (0 : ℤ) < 2 ^ k := by positivity
  rw [Int64.toInt_neg, hlimit]
  exact Int.bmod_eq_of_le (by omega) (by omega)

theorem fitsSigned_iff (value width : Int64) :
    fitsSigned value width ↔ (0 < width.toInt →
      -2 ^ (width.toInt.toNat - 1) ≤ value.toInt ∧ value.toInt < 2 ^ (width.toInt.toNat - 1)) := by
  have hzero : (0 : Int64).toInt = 0 := rfl
  have h64 : (64 : Int64).toInt = 64 := rfl
  simp only [fitsSigned, Bool.or_eq_true, Bool.not_eq_true', Bool.and_eq_true, decide_eq_true_eq,
    Bool.and_eq_false_iff, decide_eq_false_iff_not, Int64.lt_iff_toInt_lt, Int64.le_iff_toInt_le,
    hzero, h64]
  by_cases hpos : 0 < width.toInt
  · obtain ⟨k, hk⟩ : ∃ k : ℕ, width.toInt = k + 1 := ⟨width.toInt.toNat - 1, by omega⟩
    have hexp : width.toInt.toNat - 1 = k := by omega
    rw [hexp]
    by_cases hsmall : k < 63
    · rw [toInt_signedLimit hk hsmall, toInt_neg_signedLimit hk hsmall]
      omega
    · -- Every word has a sign and 63 more bits.
      have hpow : (2 : ℤ) ^ 63 ≤ 2 ^ k := pow_le_pow_right₀ (by norm_num) (by omega)
      have hlo := value.le_toInt
      have hhi := value.toInt_lt
      exact iff_of_true (.inl (.inr (by omega))) fun _ => ⟨by omega, by omega⟩
  · exact iff_of_true (.inl (.inl hpos)) fun h => absurd h hpos

theorem fitsUnsigned_iff {value : Int64} (h : 0 ≤ value.toInt) (width : Int64) :
    fitsUnsigned value width ↔
      (0 < width.toInt → value.toInt < 2 ^ width.toInt.toNat) := by
  have hzero : (0 : Int64).toInt = 0 := rfl
  have h64 : (64 : Int64).toInt = 64 := rfl
  obtain ⟨v, hv⟩ : ∃ v : ℕ, value.toInt = v := ⟨value.toInt.toNat, by omega⟩
  simp only [fitsUnsigned, Bool.not_eq_true', Bool.and_eq_false_iff, decide_eq_false_iff_not,
    Int64.lt_iff_toInt_lt, hzero, h64, bitLength_eq_size, toNat_toUInt64 hv]
  by_cases hpos : 0 < width.toInt
  · obtain ⟨k, hk⟩ : ∃ k : ℕ, width.toInt = k := ⟨width.toInt.toNat, by omega⟩
    have hsize : v.size ≤ k ↔ (v : ℤ) < 2 ^ k := by
      rw [Nat.size_le]
      exact_mod_cast Iff.rfl
    rw [hv, hk, Int.toNat_natCast, ← hsize]
    by_cases hsmall : k < 64
    · omega
    · -- No word has more than 64 bits.
      have hword : v < 2 ^ 64 := by
        have := value.toInt_lt
        omega
      have hfits : v.size ≤ k := (Nat.size_le.mpr hword).trans (by omega)
      exact iff_of_true (.inl (.inr (by omega))) fun _ => hfits
  · exact iff_of_true (.inl (.inl hpos)) fun h => absurd h hpos

/-! What the check of one node decides -/

theorem requireOperands_decides (kind : String) (es : List (String × Expr)) :
    Decides (es.map fun p => filled kind p.1 p.2.isPresent) (requireOperands kind es) := by
  induction es with
  | nil => exact .nil
  | cons p es ih => exact .ite Iff.rfl ih

theorem requireName_decides (kind name : String) :
    Decides [named kind "Name" name] (requireName kind name) :=
  .ite_not not_not.symm .nil

theorem requireType_decides (kind : String) (t : Ty) :
    Decides [filled kind "Type" t.isPresent] (requireType kind t) :=
  .last Iff.rfl

theorem checkWidth_decides (kind : String) (width : Int64) :
    Decides [ranged kind (.negativeWidth width) (0 ≤ width.toInt)] (checkWidth kind width) :=
  .ite_not (lt_zero_iff width) .nil

theorem checkCounted_decides (kind : String) (e : Expr) (n : Int64) :
    Decides (countedLaws kind e n) (checkCounted kind e n) :=
  .ite_not (by simp [filled]) (.ite_not (lt_zero_iff n) .nil)

theorem checkShift_decides (kind : String) (e amount : Expr) (places : Int64) :
    Decides (shiftLaws kind e places amount) (checkShift kind e places amount) := by
  refine .ite_not ?_ (checkCounted_decides kind e places)
  have hzero : places.toInt = 0 ↔ places = 0 := Int64.toInt_inj (y := 0)
  simp [fitting, hzero]

/-- Looking for a name that stood earlier goes through the laws that forbid one. -/
theorem firstRepeated_decides (seen names : List String) :
    Decides (names.mapIdx fun i name => ⟨name ∉ seen ∧ name ∉ names.take i,
        .construction "Bundle" name .duplicateName⟩)
      (match firstRepeated seen names with
        | some name => .error (.construction "Bundle" name .duplicateName)
        | none => .ok ()) := by
  induction names generalizing seen with
  | nil => exact .nil
  | cons name names ih =>
    rw [List.mapIdx_cons, firstRepeated]
    split_ifs with hmem
    · exact .broken fun h => h.1 hmem
    · refine .kept ⟨hmem, List.not_mem_nil⟩ ?_
      have hseen := ih (name :: seen)
      simpa [and_assoc, and_left_comm] using hseen

theorem checkLiteral_decides (value : Int64) (type : Ty) :
    Decides (literalLaws value type) (checkLiteral value type) := by
  cases type with
  | absent => exact .broken (by simp [filled])
  | uint width =>
    by_cases hneg : value < 0
    · rw [checkLiteral, if_pos hneg]
      exact .broken ((lt_zero_iff value).mp hneg)
    · have hvalue : 0 ≤ value.toInt := not_not.mp (mt (lt_zero_iff value).mpr hneg)
      rw [checkLiteral, if_neg hneg]
      exact .kept hvalue (.last (fitsUnsigned_iff hvalue width))
  | sint width => exact .last (fitsSigned_iff value width)
  | _ => exact .broken id

theorem Ty.checkSelf_decides (t : Ty) : Decides t.laws t.checkSelf := by
  cases t with
  | absent => exact .nil
  | uint width => exact checkWidth_decides "UInt" width
  | sint width => exact checkWidth_decides "SInt" width
  | clock => exact .nil
  | vector elem count => exact .ite_not (by simp [filled]) (.ite_not (lt_zero_iff count) .nil)
  | bundle fields =>
    have hnames := firstRepeated_decides [] (fields.map Field.name)
    simp only [List.not_mem_nil, not_false_eq_true, true_and] at hnames
    exact hnames
  | foreign kind => exact .broken id

theorem Expr.checkSelf_decides (e : Expr) : Decides e.laws e.checkSelf := by
  cases e with
  | absent => exact .nil
  | ref name => exact requireName_decides "Ref" name
  | literal value type => exact checkLiteral_decides value type
  | mux sel a b => exact requireOperands_decides "Mux" [("Sel", sel), ("A", a), ("B", b)]
  | validIf valid a => exact requireOperands_decides "ValidIf" [("Valid", valid), ("A", a)]
  | binary op a b => exact .ite Iff.rfl (requireOperands_decides "BinOp" [("E1", a), ("E2", b)])
  | compare op a b => exact .ite Iff.rfl (requireOperands_decides "Cmp" [("E1", a), ("E2", b)])
  | unary op e => exact .ite Iff.rfl (requireOperands_decides "UnOp" [("E", e)])
  | pad e width => exact checkCounted_decides "Pad" e width
  | shiftLeft e places amount => exact checkShift_decides "ShiftLeft" e amount places
  | shiftRight e places amount => exact checkShift_decides "ShiftRight" e amount places
  | bits e hi lo =>
    refine .ite_not (by simp [filled]) (.ite_not (lt_zero_iff lo) (.ite_not ?_ .nil))
    exact Int64.lt_iff_toInt_lt.trans not_le.symm
  | head e count => exact checkCounted_decides "Head" e count
  | tail e count => exact checkCounted_decides "Tail" e count
  | leaf l => exact .broken id

theorem Stmt.checkSelf_decides (s : Stmt) : Decides s.laws s.checkSelf := by
  cases s with
  | absent => exact .nil
  | connect lhs rhs =>
    exact .ite_not not_not.symm (requireOperands_decides "Connect" [("Rhs", rhs)])
  | register name type clock reset =>
    exact (requireName_decides _ name).bind
      ((requireType_decides _ type).bind (requireOperands_decides _ [("Clock", clock)]))
  | wire name type => exact (requireName_decides _ name).bind (requireType_decides _ type)
  | printf clock condition format args =>
    exact .ite Iff.rfl
      (requireOperands_decides "PrintF" [("Clock", clock), ("Condition", condition)])
  | stop clock condition exitCode =>
    exact requireOperands_decides "Stop" [("Clock", clock), ("Condition", condition)]
  | foreign kind => exact .broken id

theorem Node.checkSelf_decides (n : Node) : Decides n.laws n.checkSelf := by
  cases n with
  | type t => exact t.checkSelf_decides
  | field f => exact (requireName_decides _ f.name).bind (requireType_decides _ f.type)
  | expr e => exact e.checkSelf_decides
  | stmt s => exact s.checkSelf_decides
  | reset r => exact requireOperands_decides "Reset" [("Enable", r.enable), ("Value", r.value)]
  | port p =>
    exact (requireName_decides _ p.name).bind
      ((requireType_decides _ p.type).bind (.last Iff.rfl))
  | module m => exact (requireName_decides _ m.name).bind (.last Iff.rfl)
  | circuit c => exact requireName_decides "Circuit" c.name

/-! What the check of a tree decides -/

/-- A node of a kind that the language does not have breaks a law. -/
theorem Node.checkSelf_unknown {n : Node} (h : ¬ n.isKnown) : ∃ err, n.checkSelf = .error err := by
  cases n with
  | type t =>
    cases t with
    | foreign kind => exact ⟨_, rfl⟩
    | _ => exact absurd rfl h
  | expr e =>
    cases e with
    | leaf l => exact ⟨_, rfl⟩
    | _ => exact absurd rfl h
  | stmt s =>
    cases s with
    | foreign kind => exact ⟨_, rfl⟩
    | _ => exact absurd rfl h
  | _ => exact absurd rfl h

theorem Node.check_eq_forM (n : Node) : n.check = forM n.preorder Node.checkSelf := by
  refine Tree.visitAll_eq_forM (fun _ => rfl) n.trees fun k _ hk next => ?_
  obtain ⟨err, herr⟩ := Node.checkSelf_unknown hk
  rw [herr]
  rfl

/-- The check accepts a tree whose nodes all keep their laws, and no other; what it says of another is
what the first node, in pre-order, that breaks a law is told for the first law that it breaks. -/
theorem check_exact (n : Node) :
    (n.check = .ok () ↔ ∀ k ∈ n.preorder, k.WellFormed) ∧
    ∀ err, n.check = .error err ↔ ∃ before k after, n.preorder = before ++ k :: after ∧
      (∀ j ∈ before, j.WellFormed) ∧ k.Breaks err := by
  rw [Node.check_eq_forM]
  have hkept (k : Node) : k.checkSelf = .ok () ↔ k.WellFormed := k.checkSelf_decides.eq_ok_iff
  have hbroken (k : Node) (err : Error) : k.checkSelf = .error err ↔ k.Breaks err :=
    k.checkSelf_decides.eq_error_iff
  constructor
  · simp only [forM_eq_ok, hkept]
  · intro err
    simp only [forM_eq_error, hkept, hbroken]

-- An operand that is missing is found before the one that stands there is looked into.
example : (Node.expr (.binary .add (.ref "") .absent)).check = .error (missing "BinOp" "E2") := by
  decide

end GuardedRtl.Rtl
