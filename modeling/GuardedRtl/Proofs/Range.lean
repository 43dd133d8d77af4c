import GuardedRtl.Proofs.Exactness

/-! Evaluation stays within 64 bits. Over well-formed values every operation gives a well-formed
value or fails, with one exception: a static shift to the left adds its places to a width, and a sum
beyond the largest width wraps around to a negative one, which passes for narrow
(`shiftLeft_wraps`). -/

namespace GuardedRtl.Rtl

/-- Whatever the outcome is, it is not a value out of range. -/
def Ranged (x : Except Error Value) : Prop := ∀ v, x = .ok v → v.WellFormed

theorem Ranged.error (e : Error) : Ranged (.error e) := fun v h => by cases h

theorem Ranged.bind {x : Except Error Value} {f : Value → Except Error Value} (hx : Ranged x)
    (hf : ∀ v, x = .ok v → v.WellFormed → Ranged (f v)) : Ranged (x >>= f) := by
  intro v hv
  obtain ⟨u, hu, hv⟩ := bind_eq_ok.mp hv
  exact hf u hu (hx u hu) v hv

theorem Value.Holds.wellFormed {v : Value} {n : Number} (h : v.Holds n) : v.WellFormed := by
  have hnarrow := h.narrow
  have hwidth : v.width.toNatClampNeg = n.width := by
    rw [Int64.toNatClampNeg, h.width, Int.toNat_natCast]
  refine ⟨?_, ?_, ?_⟩
  · rw [Int64.le_iff_toInt_le, h.width]
    exact Int.natCast_nonneg n.width
  · rw [Int64.le_iff_toInt_le, h.width]
    change (n.width : ℤ) ≤ 64
    omega
  · rw [h.bits, hwidth]
    exact h.fits

/-- An operation that agrees with one on unbounded numbers is never out of range. -/
theorem Agrees.ranged {x : Except Error Value} {p : Prop} {n : Number} (h : Agrees x p n) :
    Ranged x :=
  fun _ hv => (h.holds hv).wellFormed

theorem widen_ranged (bits : UInt64) {w : Int64} (hw : 0 ≤ w) : Ranged (widen bits w) :=
  (widen_agrees (Int64.toInt_eq_toNatClampNeg hw) (Nat.mod_lt _ (Nat.two_pow_pos _))
    fun _ => rfl).ranged

/-! Static shifts to the left -/

theorem shiftLeft_ranged {a : Value} {n : Int64} (ha : a.WellFormed) (hn : 0 ≤ n)
    (hroom : a.width.toInt + n.toInt < 2 ^ 63) :
    Ranged (widen (shiftUp a.bits n.toUInt64) (a.width + n)) := by
  have hwidth := Int64.le_iff_toInt_le.mp ha.1
  have hplaces := Int64.le_iff_toInt_le.mp hn
  rw [Int64.toInt_zero] at hwidth hplaces
  apply widen_ranged
  rw [Int64.le_iff_toInt_le, toInt_add (by omega) hroom, Int64.toInt_zero]
  omega

/-- A sum beyond the largest width is taken for a negative one. -/
theorem toInt_add_wraps {m n : Int64} (h : 2 ^ 63 ≤ m.toInt + n.toInt) :
    (m + n).toInt = m.toInt + n.toInt - 2 ^ 64 := by
  have hm := m.toInt_lt
  have hn := n.toInt_lt
  rw [Int64.toInt_add, Int.bmod_def]
  omega

/-- A shift without room leaves nothing of the bits. -/
theorem shiftLeft_wraps {a : Value} {n : Int64} (hnarrow : a.width ≤ 64) (hn : 0 ≤ n)
    (hwraps : 2 ^ 63 ≤ a.width.toInt + n.toInt) :
    widen (shiftUp a.bits n.toUInt64) (a.width + n) = .ok ⟨0, a.width + n⟩ ∧ a.width + n < 0 := by
  have hwidth : a.width.toInt ≤ 64 := Int64.le_iff_toInt_le.mp hnarrow
  have hlarge := n.toInt_lt
  have hsum := toInt_add_wraps hwraps
  have hneg : a.width + n < 0 := by
    rw [Int64.lt_iff_toInt_lt, hsum, Int64.toInt_zero]
    omega
  have hplaces : 64 ≤ n.toUInt64.toNat := by
    have hcast := Int64.toInt_eq_toNatClampNeg hn
    rw [toNat_toUInt64 hcast]
    omega
  have hgone : shiftUp a.bits n.toUInt64 = 0 := if_neg (Nat.not_lt.mpr hplaces)
  have hpasses : ¬ 64 < a.width + n := by
    rw [Int64.lt_iff_toInt_lt, hsum]
    change ¬ (64 : ℤ) < _
    omega
  rw [widen, if_neg hpasses, hgone, UInt64.zero_and]
  exact ⟨rfl, hneg⟩

/-- A static shift to the left has room for its width. -/
def Expr.HasRoom (env : Env) : Expr → Prop
  | .shiftLeft a n .absent => ∀ u, a.eval env = .ok u → u.width.toInt + n.toInt < 2 ^ 63
  | _ => True

/-- The width of the value of an operand is known before its bits are masked. -/
theorem eval_of_value {e : Expr} {env : Env} {v : Value} (hacc : e.Accepted)
    (hv : e.value env = .ok v) : ∃ u, e.eval env = .ok u ∧ u.width = v.width :=
  ⟨_, eval_eq_ok.mpr ⟨hacc, v, hv, rfl⟩, rfl⟩

theorem ref_ranged {env : Env} (henv : ∀ x v, env x = some v → v.WellFormed) (x : String) :
    Ranged ((Expr.ref x).value env) := by
  intro v hv
  simp only [Expr.value] at hv
  cases hx : env x with
  | none =>
    rw [hx] at hv
    cases hv
  | some u =>
    rw [hx, Except.ok.injEq] at hv
    exact hv ▸ henv x u hx

theorem value_ranged {env : Env} (henv : ∀ x v, env x = some v → v.WellFormed) (e : Expr)
    (hacc : e.Accepted) (hroom : ∀ p ∈ e.parts, p.HasRoom env) : Ranged (e.value env) := by
  induction e with
  | absent => exact .error _
  | leaf l => exact .error _
  | ref x => exact ref_ranged henv x
  | literal v t => exact (literal_agrees (r := env.reading) hacc).ranged
  | mux s a b ihs iha ihb =>
    obtain ⟨-, as, aa, ab⟩ := (Expr.accepted_mux s a b).mp hacc
    obtain ⟨-, hs, ha, hb⟩ := (Expr.forall_parts rfl).mp hroom
    exact (ihs as hs).bind fun k _ hk => (iha aa ha).bind fun x _ hx =>
      (ihb ab hb).bind fun y _ hy => (mux_agrees hx.holds hy.holds hk.holds).ranged
  | validIf v a ihv iha =>
    obtain ⟨-, av, aa⟩ := (Expr.accepted_validIf v a).mp hacc
    obtain ⟨-, hv, ha⟩ := (Expr.forall_parts rfl).mp hroom
    exact (ihv av hv).bind fun k _ hk => (iha aa ha).bind fun x _ hx =>
      (validIf_agrees hx.holds hk.holds).ranged
  | binary op a b iha ihb =>
    obtain ⟨⟨hop, -⟩, aa, ab⟩ := (Expr.accepted_binary op a b).mp hacc
    obtain ⟨-, ha, hb⟩ := (Expr.forall_parts rfl).mp hroom
    exact (iha aa ha).bind fun x _ hx => (ihb ab hb).bind fun y _ hy =>
      (evalBinary_agrees hx.holds hy.holds hop).ranged
  | compare op a b iha ihb =>
    obtain ⟨⟨hop, -⟩, aa, ab⟩ := (Expr.accepted_compare op a b).mp hacc
    obtain ⟨-, ha, hb⟩ := (Expr.forall_parts rfl).mp hroom
    exact (iha aa ha).bind fun x _ hx => (ihb ab hb).bind fun y _ hy =>
      (evalCompare_agrees hx.holds hy.holds hop).ranged
  | unary op a ih =>
    obtain ⟨⟨hop, -⟩, aa⟩ := (Expr.accepted_unary op a).mp hacc
    obtain ⟨-, ha⟩ := (Expr.forall_parts rfl).mp hroom
    exact (ih aa ha).bind fun x _ hx => (evalUnary_agrees hx.holds hop).ranged
  | pad a w ih =>
    obtain ⟨⟨-, hw⟩, aa⟩ := (Expr.accepted_pad a w).mp hacc
    obtain ⟨-, ha⟩ := (Expr.forall_parts rfl).mp hroom
    exact (ih aa ha).bind fun x _ hx => (pad_agrees hx.holds hw).ranged
  | shiftLeft a n amount iha ihn =>
    obtain ⟨⟨-, -, hn⟩, aa, aamount⟩ := (Expr.accepted_shiftLeft a amount n).mp hacc
    obtain ⟨hself, ha, hamount⟩ := (Expr.forall_parts rfl).mp hroom
    refine (iha aa ha).bind fun x hvalue hx => ?_
    by_cases hp : amount.isPresent
    · rw [if_pos hp]
      exact (ihn aamount hamount).bind fun k _ hk => (shiftLeftBy_agrees hx.holds hk.holds).ranged
    · -- The places are the one number that is added to a width before anything bounds it.
      obtain rfl : amount = .absent := by simpa [Expr.isPresent] using hp
      obtain ⟨u, hu, hwidth⟩ := eval_of_value aa hvalue
      exact shiftLeft_ranged hx hn (hwidth ▸ hself u hu)
  | shiftRight a n amount iha ihn =>
    obtain ⟨⟨-, -, hn⟩, aa, aamount⟩ := (Expr.accepted_shiftRight a amount n).mp hacc
    obtain ⟨-, ha, hamount⟩ := (Expr.forall_parts rfl).mp hroom
    refine (iha aa ha).bind fun x _ hx => ?_
    by_cases hp : amount.isPresent
    · rw [if_pos hp]
      exact (ihn aamount hamount).bind fun k _ hk =>
        (shiftRightBy_agrees hx.holds hk.holds).ranged
    · rw [if_neg hp]
      exact (shiftRight_agrees hx.holds hn).ranged
  | bits a hi lo ih =>
    obtain ⟨⟨-, hlo, hle⟩, aa⟩ := (Expr.accepted_bits a hi lo).mp hacc
    obtain ⟨-, ha⟩ := (Expr.forall_parts rfl).mp hroom
    exact (ih aa ha).bind fun x _ hx => (evalBits_agrees hx.holds hlo hle).ranged
  | head a n ih =>
    obtain ⟨⟨-, hn⟩, aa⟩ := (Expr.accepted_head a n).mp hacc
    obtain ⟨-, ha⟩ := (Expr.forall_parts rfl).mp hroom
    exact (ih aa ha).bind fun x _ hx => (evalHead_agrees hx.holds hn).ranged
  | tail a n ih =>
    obtain ⟨⟨-, hn⟩, aa⟩ := (Expr.accepted_tail a n).mp hacc
    obtain ⟨-, ha⟩ := (Expr.forall_parts rfl).mp hroom
    exact (ih aa ha).bind fun x _ hx => (evalTail_agrees hx.holds hn).ranged

/-- A shift without room is evaluated all the same. -/
theorem eval_shiftLeft_wraps {a : Expr} {n : Int64} {env : Env} {u : Value} (hn : 0 ≤ n)
    (hu : a.eval env = .ok u) (hnarrow : u.width ≤ 64)
    (hwraps : 2 ^ 63 ≤ u.width.toInt + n.toInt) :
    (Expr.shiftLeft a n .absent).eval env = .ok ⟨0, u.width + n⟩ ∧ u.width + n < 0 := by
  obtain ⟨hacc, v, hv, rfl⟩ := eval_eq_ok.mp hu
  obtain ⟨hwidened, hneg⟩ := shiftLeft_wraps (a := v) hnarrow hn hwraps
  have hpresent : a.isPresent := by
    cases a with
    | absent => cases hv
    | _ => rfl
  have haccepted : (Expr.shiftLeft a n .absent).Accepted := by
    refine (Expr.accepted_shiftLeft a .absent n).mpr ⟨⟨fun h => ?_, hpresent, hn⟩, hacc, rfl⟩
    cases h
  have hvalue : (Expr.shiftLeft a n .absent).value env = .ok ⟨0, v.width + n⟩ :=
    bind_eq_ok.mpr ⟨v, hv, hwidened⟩
  refine ⟨eval_eq_ok.mpr ⟨haccepted, _, hvalue, ?_⟩, hneg⟩
  rw [UInt64.zero_and]

/-- Over well-formed values, evaluation gives a well-formed value or fails, if each static shift to
the left has room for its width. One without room gives a negative width. -/
theorem eval_ranged (e : Expr) (env : Env) (henv : ∀ x v, env x = some v → v.WellFormed) :
    ((∀ a n u, .shiftLeft a n .absent ∈ e.parts → a.eval env = .ok u →
        u.width.toInt + n.toInt < 2 ^ 63) →
      ∀ v, e.eval env = .ok v → v.WellFormed) ∧
    ∀ a n u, e = .shiftLeft a n .absent → 0 ≤ n → a.eval env = .ok u → u.width ≤ 64 →
      2 ^ 63 ≤ u.width.toInt + n.toInt →
      e.eval env = .ok ⟨0, u.width + n⟩ ∧ u.width + n < 0 := by
  constructor
  · intro hroom v hv
    obtain ⟨hacc, u, hu, rfl⟩ := eval_eq_ok.mp hv
    have hparts : ∀ p ∈ e.parts, p.HasRoom env := by
      intro p hp
      unfold Expr.HasRoom
      split
      · exact fun u hu => hroom _ _ u hp hu
      · trivial
    have hwellFormed := value_ranged henv e hacc hparts u hu
    rwa [mask_of_holds hwellFormed.holds]
  · rintro a n u rfl hn hu hnarrow hwraps
    exact eval_shiftLeft_wraps hn hu hnarrow hwraps

def Env.single (x : String) (v : Value) : Env := Env.empty.bind x v

theorem Env.single_wellFormed {x : String} {v : Value} (h : v.WellFormed) :
    ∀ y u, Env.single x v y = some u → u.WellFormed := by
  intro y u hu
  unfold Env.single Env.bind Env.empty at hu
  split_ifs at hu
  cases hu
  exact h

/-- Eight bits moved to the upper end of a word. -/
theorem eval_ranged_raised :
    (Expr.shiftLeft (.ref "x") 56 .absent).eval (.single "x" ⟨0xff, 8⟩) =
      .ok ⟨0xff00000000000000, 64⟩ ∧
    (⟨0xff00000000000000, 64⟩ : Value).WellFormed := by
  have heval : (Expr.shiftLeft (.ref "x") 56 .absent).eval (.single "x" ⟨0xff, 8⟩) =
      .ok ⟨0xff00000000000000, 64⟩ := by decide +kernel
  refine ⟨heval, (eval_ranged _ _ (Env.single_wellFormed (by decide))).1 ?_ _ heval⟩
  intro a n u hmem hu
  have hshift : a = .ref "x" ∧ n = 56 := by simpa [Expr.parts] using hmem
  obtain ⟨rfl, rfl⟩ := hshift
  have hx : (Expr.ref "x").eval (.single "x" ⟨0xff, 8⟩) = .ok ⟨0xff, 8⟩ := by decide +kernel
  rw [hx, Except.ok.injEq] at hu
  subst hu
  decide

/-- One bit moved by as many places as there can be has a negative width. -/
theorem eval_wraps :
    (∀ x v, Env.single "x" ⟨1, 1⟩ x = some v → v.WellFormed) ∧
    ∃ v, (Expr.shiftLeft (.ref "x") 9223372036854775807 .absent).eval (.single "x" ⟨1, 1⟩) = .ok v ∧
      v.width = -9223372036854775808 ∧ ¬ v.WellFormed :=
  ⟨Env.single_wellFormed (by decide), ⟨0, -9223372036854775808⟩, by decide +kernel, rfl, by decide⟩

end GuardedRtl.Rtl
