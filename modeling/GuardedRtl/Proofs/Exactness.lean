import GuardedRtl.Proofs.Operations

/-! Evaluation is exact: it succeeds on the well-formed expressions for which 64 bits are enough, and
its value is then the value over unbounded numbers. The induction carries that every value met on the
way fits its own width, since only some operations mask their result. -/

namespace GuardedRtl.Rtl

theorem Value.WellFormed.holds {v : Value} (h : v.WellFormed) : v.Holds v.number := by
  obtain ⟨h0, h64, hbits⟩ := h
  have hw := Int64.toInt_eq_toNatClampNeg h0
  have h64' : v.width.toInt ≤ 64 := Int64.le_iff_toInt_le.mp h64
  refine ⟨rfl, hw, hbits, ?_⟩
  change v.width.toNatClampNeg ≤ 64
  omega

/-- A literal that is accepted fits the width that it is given. -/
theorem lt_of_fitsUnsigned {v w : Int64} (hv : 0 ≤ v) (hw : 0 < w) (h : fitsUnsigned v w) :
    v.toNatClampNeg < 2 ^ w.toNatClampNeg := by
  have hw' := Int64.toInt_eq_toNatClampNeg (Int64.le_of_lt hw)
  have hv63 := v.toNatClampNeg_lt
  by_cases h64 : w < 64
  · have hlen : bitLength v.toUInt64 = v.toNatClampNeg.size := by
      rw [bitLength_eq_size, toNat_toUInt64 (Int64.toInt_eq_toNatClampNeg hv)]
    simp only [fitsUnsigned, hw, h64, decide_true, Bool.and_self, Bool.true_and, Bool.not_eq_true',
      decide_eq_false_iff_not, hlen, hw'] at h
    exact Nat.size_le.mp (by omega)
  · have h63 : 63 ≤ w.toNatClampNeg := by
      have := Int64.le_iff_toInt_le.mp (Int64.not_lt.mp h64)
      have h64' : (64 : Int64).toInt = 64 := rfl
      omega
    exact hv63.trans_le (Nat.pow_le_pow_right two_pos h63)

theorem uint_agrees {v w : Int64} (hv : 0 ≤ v) (hw : 0 ≤ w) (hfit : fitsUnsigned v w) :
    Agrees (evalLiteral v (.uint w)) ((Number.literal v (.uint w)).width ≤ 64)
      (.literal v (.uint w)) := by
  have hbits := toNat_toUInt64 (Int64.toInt_eq_toNatClampNeg hv)
  simp only [evalLiteral, Number.literal]
  split_ifs with h0
  · have hlen : bitLength v.toUInt64 = v.toNatClampNeg.size := by rw [bitLength_eq_size, hbits]
    have hsize : v.toNatClampNeg.size ≤ 63 := Nat.size_le.mpr v.toNatClampNeg_lt
    have hwidth : (max (Int64.ofNat (bitLength v.toUInt64)) 1).toInt =
        (max v.toNatClampNeg.size 1 : ℕ) := by
      rw [toInt_max, hlen, Int64.toInt_ofNat_of_lt (by omega), Int64.toInt_one]
      omega
    have hfits := lt_two_pow_max_left 1 (Nat.lt_size_self v.toNatClampNeg)
    refine widen_agrees hwidth hfits fun _ => ?_
    rw [hbits]
    exact Nat.mod_eq_of_lt hfits
  · have hpos : 0 < w := Int64.lt_of_le_of_ne hw (Ne.symm h0)
    have hfits := lt_of_fitsUnsigned hv hpos hfit
    refine widen_agrees (Int64.toInt_eq_toNatClampNeg hw) hfits fun _ => ?_
    rw [hbits]
    exact Nat.mod_eq_of_lt hfits

theorem literal_agrees {r : Reading} {v : Int64} {t : Ty} (h : (Expr.literal v t).Accepted) :
    Agrees (evalLiteral v t) ((Expr.literal v t).Evaluable r) (.literal v t) := by
  rw [Expr.accepted_literal] at h
  obtain ⟨hlit, htype⟩ := h
  rw [Expr.evaluable_iff rfl]
  cases t with
  | uint w =>
    have hw : 0 ≤ w := by
      have := (allAccepted_singleton.mp htype).1
      simp only [Node.checkSelf, Ty.checkSelf, checkWidth] at this
      split_ifs at this with hneg
      exact Int64.not_lt.mp hneg
    simp only [checkLiteral] at hlit
    split_ifs at hlit with hneg hfit
    refine (uint_agrees (Int64.not_lt.mp hneg) hw hfit).of_iff ?_
    simp [Expr.Supported, Expr.exact, Expr.AllOperands]
  | sint w => exact .error (by simp [Expr.Supported])
  | absent => cases hlit
  | clock => cases hlit
  | vector elem count => cases hlit
  | bundle fields => cases hlit
  | foreign kind => cases hlit

/-- What is asked of a part besides being accepted: a name has a well-formed value if it has one, and
a static shift to the left does not overflow the width. -/
def Expr.Benign (env : Env) : Expr → Prop
  | .ref x => ∀ v, env x = some v → v.WellFormed
  | .shiftLeft _ n .absent => n.toInt ≤ 2 ^ 62
  | _ => True

theorem ref_agrees {env : Env} {x : String} (h : (Expr.ref x).Benign env) :
    Agrees ((Expr.ref x).value env) ((Expr.ref x).Evaluable env.reading)
      ((Expr.ref x).exact env.reading) := by
  rw [Expr.evaluable_iff rfl]
  simp only [Expr.value, Expr.exact, Expr.Supported, Env.reading]
  cases hx : env x with
  | none => exact .error (by simp)
  | some v =>
    have hv := (h v hx).holds
    exact (Agrees.ok hv.bits hv.width hv.fits hv.narrow).of_iff (by simp [Expr.AllOperands])

/-- Evaluation beside the exact value, for every expression. -/
theorem value_agrees (env : Env) (e : Expr) (hpresent : e.isPresent) (hacc : e.Accepted)
    (hbenign : ∀ p ∈ e.parts, p.Benign env) :
    Agrees (e.value env) (e.Evaluable env.reading) (e.exact env.reading) := by
  induction e with
  | absent => cases hpresent
  | leaf l => exact absurd hacc (Expr.not_accepted_leaf l)
  | ref x => exact ref_agrees (hbenign (.ref x) (List.mem_singleton_self _))
  | literal v t => exact literal_agrees hacc
  | mux s a b ihs iha ihb =>
    obtain ⟨⟨ps, pa, pb⟩, as, aa, ab⟩ := (Expr.accepted_mux s a b).mp hacc
    rw [Expr.forall_parts hpresent] at hbenign
    obtain ⟨-, hs, ha, hb⟩ := hbenign
    refine Agrees.of_iff ((ihs ps as hs).bind fun k hk => (iha pa aa ha).bind fun x hx =>
      (ihb pb ab hb).bind fun y hy => mux_agrees hx hy hk) ?_
    simp only [Expr.evaluable_iff hpresent, Expr.AllOperands, Expr.Supported, Expr.exact]
    tauto
  | validIf v a ihv iha =>
    obtain ⟨⟨pv, pa⟩, av, aa⟩ := (Expr.accepted_validIf v a).mp hacc
    rw [Expr.forall_parts hpresent] at hbenign
    obtain ⟨-, hv, ha⟩ := hbenign
    refine Agrees.of_iff ((ihv pv av hv).bind fun k hk => (iha pa aa ha).bind fun x hx =>
      validIf_agrees hx hk) ?_
    simp only [Expr.evaluable_iff hpresent, Expr.AllOperands, Expr.Supported, Expr.exact]
    tauto
  | binary op a b iha ihb =>
    obtain ⟨⟨hop, pa, pb⟩, aa, ab⟩ := (Expr.accepted_binary op a b).mp hacc
    rw [Expr.forall_parts hpresent] at hbenign
    obtain ⟨-, ha, hb⟩ := hbenign
    refine Agrees.of_iff ((iha pa aa ha).bind fun x hx => (ihb pb ab hb).bind fun y hy =>
      evalBinary_agrees hx hy hop) ?_
    simp only [Expr.evaluable_iff hpresent, Expr.AllOperands, Expr.Supported, Expr.exact]
    tauto
  | compare op a b iha ihb =>
    obtain ⟨⟨hop, pa, pb⟩, aa, ab⟩ := (Expr.accepted_compare op a b).mp hacc
    rw [Expr.forall_parts hpresent] at hbenign
    obtain ⟨-, ha, hb⟩ := hbenign
    refine Agrees.of_iff ((iha pa aa ha).bind fun x hx => (ihb pb ab hb).bind fun y hy =>
      evalCompare_agrees hx hy hop) ?_
    simp only [Expr.evaluable_iff hpresent, Expr.AllOperands, Expr.Supported, Expr.exact]
    tauto
  | unary op a ih =>
    obtain ⟨⟨hop, pa⟩, aa⟩ := (Expr.accepted_unary op a).mp hacc
    rw [Expr.forall_parts hpresent] at hbenign
    refine Agrees.of_iff ((ih pa aa hbenign.2).bind fun x hx => evalUnary_agrees hx hop) ?_
    rw [Expr.evaluable_iff hpresent]
    exact and_comm
  | pad a w ih =>
    obtain ⟨⟨pa, hw⟩, aa⟩ := (Expr.accepted_pad a w).mp hacc
    rw [Expr.forall_parts hpresent] at hbenign
    refine Agrees.of_iff ((ih pa aa hbenign.2).bind fun x hx => pad_agrees hx hw) ?_
    simp only [Expr.evaluable_iff hpresent, Expr.AllOperands, Expr.Supported, Expr.exact]
    tauto
  | shiftLeft a n amount iha ihn =>
    obtain ⟨⟨-, pa, hn⟩, aa, aamount⟩ := (Expr.accepted_shiftLeft a amount n).mp hacc
    rw [Expr.forall_parts hpresent] at hbenign
    obtain ⟨hself, ha, hamount⟩ := hbenign
    rw [Expr.evaluable_iff hpresent]
    simp only [Expr.value, Expr.exact, Expr.AllOperands, Expr.Supported]
    by_cases hp : amount.isPresent
    · simp only [hp, if_true]
      refine Agrees.of_iff ((iha pa aa ha).bind fun x hx => (ihn hp aamount hamount).bind fun k hk =>
        shiftLeftBy_agrees hx hk) ?_
      tauto
    · obtain rfl : amount = .absent := by simpa [Expr.isPresent] using hp
      simp only [hp, Bool.false_eq_true, if_false]
      refine Agrees.of_iff ((iha pa aa ha).bind fun x hx => shiftLeft_agrees hx hn hself) ?_
      have := Expr.evaluable_absent env.reading
      tauto
  | shiftRight a n amount iha ihn =>
    obtain ⟨⟨-, pa, hn⟩, aa, aamount⟩ := (Expr.accepted_shiftRight a amount n).mp hacc
    rw [Expr.forall_parts hpresent] at hbenign
    obtain ⟨-, ha, hamount⟩ := hbenign
    rw [Expr.evaluable_iff hpresent]
    simp only [Expr.value, Expr.exact, Expr.AllOperands, Expr.Supported]
    by_cases hp : amount.isPresent
    · simp only [hp, if_true]
      refine Agrees.of_iff ((iha pa aa ha).bind fun x hx => (ihn hp aamount hamount).bind fun k hk =>
        shiftRightBy_agrees hx hk) ?_
      tauto
    · obtain rfl : amount = .absent := by simpa [Expr.isPresent] using hp
      simp only [hp, Bool.false_eq_true, if_false]
      refine Agrees.of_iff ((iha pa aa ha).bind fun x hx => shiftRight_agrees hx hn) ?_
      have := Expr.evaluable_absent env.reading
      tauto
  | bits a hi lo ih =>
    obtain ⟨⟨pa, hlo, hle⟩, aa⟩ := (Expr.accepted_bits a hi lo).mp hacc
    rw [Expr.forall_parts hpresent] at hbenign
    refine Agrees.of_iff ((ih pa aa hbenign.2).bind fun x hx => evalBits_agrees hx hlo hle) ?_
    rw [Expr.evaluable_iff hpresent]
    exact and_comm
  | head a n ih =>
    obtain ⟨⟨pa, hn⟩, aa⟩ := (Expr.accepted_head a n).mp hacc
    rw [Expr.forall_parts hpresent] at hbenign
    refine Agrees.of_iff ((ih pa aa hbenign.2).bind fun x hx => evalHead_agrees hx hn) ?_
    rw [Expr.evaluable_iff hpresent]
    exact and_comm
  | tail a n ih =>
    obtain ⟨⟨pa, hn⟩, aa⟩ := (Expr.accepted_tail a n).mp hacc
    rw [Expr.forall_parts hpresent] at hbenign
    refine Agrees.of_iff ((ih pa aa hbenign.2).bind fun x hx => evalTail_agrees hx hn) ?_
    rw [Expr.evaluable_iff hpresent]
    exact and_comm

theorem Expr.isPresent_iff {e : Expr} : e.isPresent ↔ e ≠ .absent := by
  simp [Expr.isPresent]

theorem Expr.ModestShifts.benign {e : Expr} {env : Env} (h : e.ModestShifts)
    (henv : ∀ x v, .ref x ∈ e.parts → env x = some v → v.WellFormed) :
    ∀ p ∈ e.parts, p.Benign env := by
  intro p hp
  cases p with
  | ref x => exact fun v hv => henv x v hp hv
  | shiftLeft a n amount =>
    cases amount with
    | absent => exact h a n hp
    | _ => trivial
  | _ => trivial

/-- The last mask of an evaluation changes nothing. -/
theorem mask_of_holds {v : Value} {n : Number} (h : v.Holds n) :
    { v with bits := v.bits &&& mask v.width } = v := by
  have : v.bits &&& mask v.width = v.bits := by
    apply UInt64.toNat_inj.mp
    rw [toNat_and_mask _ h.width h.narrow, h.bits]
    exact Nat.mod_eq_of_lt h.fits
  rw [this]

theorem eval_eq_ok {e : Expr} {env : Env} {v : Value} :
    e.eval env = .ok v ↔
      e.Accepted ∧ ∃ u, e.value env = .ok u ∧ { u with bits := u.bits &&& mask u.width } = v := by
  unfold Expr.eval Expr.Accepted
  simp only [bind_eq_ok, pure, Except.pure, Except.ok.injEq]
  constructor
  · rintro ⟨⟨⟩, hacc, h⟩
    exact ⟨hacc, h⟩
  · rintro ⟨hacc, h⟩
    exact ⟨(), hacc, h⟩

/-- Evaluation succeeds exactly on the accepted expressions for which 64 bits are enough, and gives
their value over unbounded numbers; no step on the way to it has cut anything off. -/
theorem eval_exact (e : Expr) (env : Env) (he : e ≠ .absent) (hshifts : e.ModestShifts)
    (henv : ∀ x v, env x = some v → v.WellFormed) :
    ((∃ v, e.eval env = .ok v) ↔ (Node.expr e).check = .ok () ∧ e.Evaluable env.reading) ∧
    ∀ v, e.eval env = .ok v →
      v.bits.toNat = (e.exact env.reading).value ∧ v.width.toInt = (e.exact env.reading).width ∧
      e.value env = .ok v := by
  have hagrees (hacc : e.Accepted) :=
    value_agrees env e (Expr.isPresent_iff.mpr he) hacc (hshifts.benign fun x v _ => henv x v)
  refine ⟨⟨?_, ?_⟩, ?_⟩
  · rintro ⟨v, hv⟩
    obtain ⟨hacc, u, hu, -⟩ := eval_eq_ok.mp hv
    exact ⟨hacc, (hagrees hacc).needs u hu⟩
  · rintro ⟨hacc, hev⟩
    obtain ⟨u, hu, -⟩ := (hagrees hacc).succeeds hev
    exact ⟨_, eval_eq_ok.mpr ⟨hacc, u, hu, rfl⟩⟩
  · intro v hv
    obtain ⟨hacc, u, hu, rfl⟩ := eval_eq_ok.mp hv
    have hholds := (hagrees hacc).holds hu
    rw [mask_of_holds hholds]
    exact ⟨hholds.bits, hholds.width, hu⟩

/-- A difference of 32 bits that wraps around, moved up by as much as 64 bits allow. -/
def movedDifference : Expr := .shiftLeft (.binary .sub (.ref "a") (.ref "b")) 0 (.ref "n")

def movedOperands : Env := ((Env.empty.bind "a" ⟨3, 32⟩).bind "b" ⟨5, 32⟩).bind "n" ⟨31, 5⟩

theorem eval_exact_movedDifference :
    movedDifference.eval movedOperands = .ok ⟨0xffffffff00000000, 64⟩ ∧
    movedDifference.exact movedOperands.reading = ⟨(2 ^ 33 - 2) * 2 ^ 31, 64⟩ ∧
    movedDifference.Evaluable movedOperands.reading := by
  have heval : movedDifference.eval movedOperands = .ok ⟨0xffffffff00000000, 64⟩ := by
    decide +kernel
  have henv : ∀ x v, movedOperands x = some v → v.WellFormed := by
    intro x v h
    simp only [movedOperands, Env.bind, Env.empty] at h
    split_ifs at h <;> cases h <;> decide
  obtain ⟨hiff, -⟩ :=
    eval_exact movedDifference movedOperands (by decide) (by decide) henv
  exact ⟨heval, by decide +kernel, (hiff.mp ⟨_, heval⟩).2⟩

end GuardedRtl.Rtl
