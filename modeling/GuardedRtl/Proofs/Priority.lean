import GuardedRtl.Proofs.Exactness
import GuardedRtl.Schedule

/-! Arbitration grants the first. Over signals of one bit, both encodings of the firing signals set
the signal of the least rule that can fire and no other. Main statement: `priority_law`. -/

namespace GuardedRtl.Schedule

open Rtl

/-- `i` is the least index whose signal is set, where `run` gives the values of signals. -/
def IsFirstSet (run : Expr → Except Error Value) (signals : List Expr) (i : ℕ) : Prop :=
  signals[i]?.map run = some (.ok (.ofBool true)) ∧
    ∀ j < i, signals[j]?.map run ≠ some (.ok (.ofBool true))

/-- Every firing signal is one bit, and it is set for the first rule that can fire. -/
structure Grants (run : Expr → Except Error Value) (canFire firing : List Expr) : Prop where
  length : firing.length = canFire.length
  signal : ∀ i < canFire.length, ∃ b : Bool,
    firing[i]?.map run = some (.ok (.ofBool b)) ∧ (b = true ↔ IsFirstSet run canFire i)

/-- What the two encodings of the firing signals have to do with each other and with the signals
that they are made of. -/
structure Lawful (run : Expr → Except Error Value) (canFire : List Expr) : Prop where
  masked : Grants run canFire (priority canFire)
  chained : Grants run canFire (muxChains canFire)
  atMostOne : ∀ i j : ℕ, (priority canFire)[i]?.map run = some (.ok (.ofBool true)) →
    (priority canFire)[j]?.map run = some (.ok (.ofBool true)) → i = j
  oneIfAny : (∃ i : ℕ, canFire[i]?.map run = some (.ok (.ofBool true))) →
    ∃! i : ℕ, (priority canFire)[i]?.map run = some (.ok (.ofBool true))
  agree : ∀ i : ℕ, (priority canFire)[i]?.map run = (muxChains canFire)[i]?.map run

/-! Gates over single bits -/

section

variable {env : Env} {a b c : Expr} {p q s : Bool}

theorem value_and (ha : a.value env = .ok (.ofBool p)) (hb : b.value env = .ok (.ofBool q)) :
    (Expr.and a b).value env = .ok (.ofBool (p && q)) := by
  rw [Expr.and, Expr.value, ha, hb]
  cases p <;> cases q <;> rfl

theorem value_or (ha : a.value env = .ok (.ofBool p)) (hb : b.value env = .ok (.ofBool q)) :
    (Expr.or a b).value env = .ok (.ofBool (p || q)) := by
  rw [Expr.or, Expr.value, ha, hb]
  cases p <;> cases q <;> rfl

theorem value_not (ha : a.value env = .ok (.ofBool p)) :
    (Expr.not a).value env = .ok (.ofBool !p) := by
  rw [Expr.not, Expr.value, ha]
  cases p <;> rfl

theorem value_mux (hc : c.value env = .ok (.ofBool s)) (ha : a.value env = .ok (.ofBool p))
    (hb : b.value env = .ok (.ofBool q)) :
    (Expr.mux c a b).value env = .ok (.ofBool (if s then p else q)) := by
  rw [Expr.value, hc, ha, hb]
  cases s <;> cases p <;> cases q <;> rfl

theorem eval_of_value_ofBool (hacc : a.Accepted) (h : a.value env = .ok (.ofBool p)) :
    a.eval env = .ok (.ofBool p) :=
  eval_eq_ok.mpr ⟨hacc, _, h, by cases p <;> rfl⟩

end

/-! The two encodings -/

section

variable {env : Env}

/-- A signal that is there and has the value `b`. -/
def Shows (env : Env) (e : Expr) (b : Bool) : Prop :=
  e.isPresent ∧ e.value env = .ok (.ofBool b)

theorem maskedBy_value {cs : List Expr} {bs : List Bool} (h : List.Forall₂ (Shows env) cs bs) :
    ∀ {earlier : Expr} {p : Bool}, Shows env earlier p → ∀ i < cs.length,
      ∃ e, (maskedBy earlier cs)[i]? = some e ∧
        e.value env = .ok (.ofBool (!p && decide (bs.findIdx? id = some i))) := by
  induction h with
  | nil => intro _ _ _ i hi; cases hi
  | @cons c b cs bs hc _ ih =>
    intro earlier p hearlier i hi
    rw [maskedBy, if_pos hearlier.1]
    cases i with
    | zero =>
      refine ⟨_, rfl, ?_⟩
      rw [value_and hc.2 (value_not hearlier.2)]
      cases b <;> cases p <;> simp [List.findIdx?_cons]
    | succ i =>
      have hor : Shows env (.or earlier c) (p || b) := ⟨rfl, value_or hearlier.2 hc.2⟩
      obtain ⟨e, he, hv⟩ := ih hor i (Nat.lt_of_succ_lt_succ hi)
      refine ⟨e, he, ?_⟩
      rw [hv]
      cases b <;> cases p <;> simp [List.findIdx?_cons]

theorem priority_value {cs : List Expr} {bs : List Bool} (h : List.Forall₂ (Shows env) cs bs) (i : ℕ)
    (hi : i < cs.length) : ∃ e, (priority cs)[i]? = some e ∧
      e.value env = .ok (.ofBool (decide (bs.findIdx? id = some i))) := by
  cases h with
  | nil => cases hi
  | @cons c b cs bs hc hcs =>
    have hcons : priority (c :: cs) = c :: maskedBy c cs := by
      simp [priority, maskedBy, Expr.isPresent]
    rw [hcons]
    cases i with
    | zero =>
      refine ⟨c, rfl, ?_⟩
      rw [hc.2]
      cases b <;> simp [List.findIdx?_cons]
    | succ i =>
      obtain ⟨e, he, hv⟩ := maskedBy_value hcs hc i (Nat.lt_of_succ_lt_succ hi)
      refine ⟨e, he, ?_⟩
      rw [hv]
      cases b <;> simp [List.findIdx?_cons]

/-- A chain that begins with rule `j` is set when the first rule of the rest is rule `i`. -/
theorem muxChain_value {cs : List Expr} {bs : List Bool} (h : List.Forall₂ (Shows env) cs bs) (i : ℕ) :
    ∀ j, (muxChain i j cs).value env =
      .ok (.ofBool (decide ((bs.findIdx? id).map (· + j) = some i))) := by
  induction h with
  | nil => intro j; rfl
  | @cons c b cs bs hc _ ih =>
    intro j
    have hhere : (if j = i then Expr.one else Expr.zero).value env =
        .ok (.ofBool (decide (j = i))) := by
      by_cases hji : j = i <;> simp only [hji, if_true, if_false] <;> rfl
    rw [muxChain, value_mux hc.2 hhere (ih (j + 1))]
    cases b <;> simp [List.findIdx?_cons, Option.map_map, Function.comp_def, Nat.add_comm,
      Nat.add_left_comm]

theorem muxChains_value {cs : List Expr} {bs : List Bool} (h : List.Forall₂ (Shows env) cs bs) (i : ℕ)
    (hi : i < cs.length) : ∃ e, (muxChains cs)[i]? = some e ∧
      e.value env = .ok (.ofBool (decide (bs.findIdx? id = some i))) := by
  refine ⟨muxChain i 0 cs, by simp [muxChains, hi], ?_⟩
  rw [muxChain_value h i 0]
  simp

theorem map_value {cs : List Expr} {bs : List Bool} (h : List.Forall₂ (Shows env) cs bs) :
    cs.map (Expr.value env) = bs.map fun b => .ok (.ofBool b) := by
  induction h with
  | nil => rfl
  | cons hc _ ih => rw [List.map_cons, List.map_cons, hc.2, ih]

theorem isFirstSet_iff {cs : List Expr} {bs : List Bool} (h : List.Forall₂ (Shows env) cs bs) (i : ℕ) :
    IsFirstSet (Expr.value env) cs i ↔ bs.findIdx? id = some i := by
  have hset (j : ℕ) : cs[j]?.map (Expr.value env) = some (.ok (.ofBool true)) ↔
      bs[j]? = some true := by
    rw [← List.getElem?_map, map_value h, List.getElem?_map]
    cases bs[j]? with
    | none => simp
    | some b => cases b <;> simp [Value.ofBool]
  simp only [IsFirstSet, ne_eq, hset, List.findIdx?_eq_some_iff_getElem, List.getElem?_eq_some_iff, id]
  constructor
  · rintro ⟨⟨hi, hb⟩, hlt⟩
    exact ⟨hi, hb, fun j hj hbj => hlt j hj ⟨hj.trans hi, hbj⟩⟩
  · rintro ⟨hi, hb, hlt⟩
    exact ⟨⟨hi, hb⟩, fun j hj hbj => hlt j hj hbj.2⟩

end

/-! The law -/

section

variable {run : Expr → Except Error Value} {canFire firing : List Expr}

/-- A firing signal is set exactly at the first index whose rule can fire. -/
theorem Grants.set_iff (h : Grants run canFire firing) (i : ℕ) :
    firing[i]?.map run = some (.ok (.ofBool true)) ↔ IsFirstSet run canFire i := by
  by_cases hi : i < canFire.length
  · obtain ⟨b, hb, hfirst⟩ := h.signal i hi
    rw [hb, ← hfirst]
    cases b <;> simp [Value.ofBool]
  · have hnone : firing[i]? = none := List.getElem?_eq_none (by rw [h.length]; omega)
    have hnone' : canFire[i]? = none := List.getElem?_eq_none (by omega)
    simp [IsFirstSet, hnone, hnone']

theorem IsFirstSet.unique {i j : ℕ} (hi : IsFirstSet run canFire i) (hj : IsFirstSet run canFire j) :
    i = j := by
  rcases Nat.lt_trichotomy i j with h | h | h
  · exact absurd hi.1 (hj.2 i h)
  · exact h
  · exact absurd hj.1 (hi.2 j h)

theorem exists_isFirstSet (h : ∃ i : ℕ, canFire[i]?.map run = some (.ok (.ofBool true))) :
    ∃ i, IsFirstSet run canFire i := by
  classical exact ⟨Nat.find h, Nat.find_spec h, fun j hj => Nat.find_min h hj⟩

/-- Signals that grant the first are determined by what they grant. -/
theorem Grants.agree {firing' : List Expr} (h : Grants run canFire firing)
    (h' : Grants run canFire firing') (i : ℕ) : firing[i]?.map run = firing'[i]?.map run := by
  by_cases hi : i < canFire.length
  · obtain ⟨b, hb, hfirst⟩ := h.signal i hi
    obtain ⟨b', hb', hfirst'⟩ := h'.signal i hi
    rw [hb, hb', Bool.eq_iff_iff.mpr (hfirst.trans hfirst'.symm)]
  · rw [List.getElem?_eq_none (by rw [h.length]; omega),
      List.getElem?_eq_none (by rw [h'.length]; omega)]

theorem Lawful.of_grants (h : Grants run canFire (priority canFire))
    (h' : Grants run canFire (muxChains canFire)) : Lawful run canFire where
  masked := h
  chained := h'
  atMostOne := fun i j hi hj => ((h.set_iff i).mp hi).unique ((h.set_iff j).mp hj)
  oneIfAny := fun hany => by
    obtain ⟨i, hi⟩ := exists_isFirstSet hany
    exact ⟨i, (h.set_iff i).mpr hi, fun j hj => ((h.set_iff j).mp hj).unique hi⟩
  agree := h.agree h'

end

theorem length_maskedBy (earlier : Expr) (cs : List Expr) :
    (maskedBy earlier cs).length = cs.length := by
  induction cs generalizing earlier with
  | nil => rfl
  | cons c cs ih =>
    rw [maskedBy]
    split_ifs <;> simp [ih]

theorem grants_of_value {env : Env} {cs firing : List Expr} {bs : List Bool}
    (h : List.Forall₂ (Shows env) cs bs) (hlen : firing.length = cs.length)
    (hvalue : ∀ i < cs.length, ∃ e, firing[i]? = some e ∧
      e.value env = .ok (.ofBool (decide (bs.findIdx? id = some i)))) :
    Grants (Expr.value env) cs firing := by
  refine ⟨hlen, fun i hi => ?_⟩
  obtain ⟨e, he, hv⟩ := hvalue i hi
  exact ⟨_, by rw [he, Option.map_some, hv], by rw [isFirstSet_iff h, decide_eq_true_iff]⟩

/-- Signals that are all there and of one bit, as a list of bits. -/
theorem exists_bits {env : Env} {cs : List Expr}
    (h : ∀ c ∈ cs, c ≠ .absent ∧ ∃ b, c.value env = .ok (.ofBool b)) :
    ∃ bs, List.Forall₂ (Shows env) cs bs := by
  induction cs with
  | nil => exact ⟨[], .nil⟩
  | cons c cs ih =>
    obtain ⟨hc, b, hb⟩ := h c (List.mem_cons_self ..)
    obtain ⟨bs, hbs⟩ := ih fun c' hc' => h c' (List.mem_cons_of_mem c hc')
    exact ⟨b :: bs, .cons ⟨Expr.isPresent_iff.mpr hc, hb⟩ hbs⟩

theorem lawful_value {env : Env} {cs : List Expr}
    (h : ∀ c ∈ cs, c ≠ .absent ∧ ∃ b, c.value env = .ok (.ofBool b)) :
    Lawful (Expr.value env) cs := by
  obtain ⟨bs, hbs⟩ := exists_bits h
  apply Lawful.of_grants
  · exact grants_of_value hbs (length_maskedBy _ _) (priority_value hbs)
  · exact grants_of_value hbs (by simp [muxChains]) (muxChains_value hbs)

/-! Evaluation also checks the signals, which the check accepts when it accepts what they are made
of. -/

theorem maskedBy_accepted {cs : List Expr} (h : ∀ c ∈ cs, c.isPresent ∧ c.Accepted) :
    ∀ {earlier : Expr}, earlier.Accepted → ∀ e ∈ maskedBy earlier cs, e.Accepted := by
  induction cs with
  | nil => intro _ _ e he; cases he
  | cons c cs ih =>
    intro earlier hearlier e he
    obtain ⟨⟨hp, hc⟩, hcs⟩ := List.forall_mem_cons.mp h
    rw [maskedBy] at he
    split_ifs at he with hpresent
    · have hnot : (Expr.not earlier).Accepted :=
        (Expr.accepted_unary _ _).mpr ⟨⟨rfl, hpresent⟩, hearlier⟩
      have hor : (Expr.or earlier c).Accepted :=
        (Expr.accepted_binary _ _ _).mpr ⟨⟨rfl, hpresent, hp⟩, hearlier, hc⟩
      rcases List.mem_cons.mp he with rfl | he
      · exact (Expr.accepted_binary _ _ _).mpr ⟨⟨rfl, hp, rfl⟩, hc, hnot⟩
      · exact ih hcs hor e he
    · rcases List.mem_cons.mp he with rfl | he
      · exact hc
      · exact ih hcs hc e he

theorem muxChain_accepted {cs : List Expr} (h : ∀ c ∈ cs, c.isPresent ∧ c.Accepted) (i : ℕ) :
    ∀ j, (muxChain i j cs).isPresent ∧ (muxChain i j cs).Accepted := by
  have hconst : Expr.one.Accepted ∧ Expr.zero.Accepted := by decide
  induction cs with
  | nil => exact fun _ => ⟨rfl, hconst.2⟩
  | cons c cs ih =>
    intro j
    obtain ⟨⟨hp, hc⟩, hcs⟩ := List.forall_mem_cons.mp h
    obtain ⟨hrest, hacc⟩ := ih hcs (j + 1)
    refine ⟨rfl, (Expr.accepted_mux _ _ _).mpr ⟨⟨hp, ?_, hrest⟩, hc, ?_, hacc⟩⟩
    · split_ifs <;> rfl
    · split_ifs
      · exact hconst.1
      · exact hconst.2

theorem map_getElem?_congr {run run' : Expr → Except Error Value} {es : List Expr}
    (h : ∀ e ∈ es, run e = run' e) (i : ℕ) : es[i]?.map run = es[i]?.map run' := by
  rw [← List.getElem?_map, ← List.getElem?_map, List.map_congr_left h]

theorem Grants.congr {run run' : Expr → Except Error Value} {canFire firing : List Expr}
    (hgrants : Grants run canFire firing) (hcan : ∀ e ∈ canFire, run e = run' e)
    (hfiring : ∀ e ∈ firing, run e = run' e) : Grants run' canFire firing := by
  refine ⟨hgrants.length, fun i hi => ?_⟩
  obtain ⟨b, hb, hfirst⟩ := hgrants.signal i hi
  refine ⟨b, by rwa [← map_getElem?_congr hfiring], hfirst.trans ?_⟩
  simp only [IsFirstSet, map_getElem?_congr hcan]

/-- Accepted signals evaluate to the bits that they have. -/
theorem Grants.value_eq_eval {env : Env} {canFire firing : List Expr}
    (hgrants : Grants (Expr.value env) canFire firing) (hacc : ∀ e ∈ firing, e.Accepted) :
    ∀ e ∈ firing, e.value env = e.eval env := by
  intro e he
  obtain ⟨i, hi⟩ := List.mem_iff_getElem?.mp he
  have hlt : i < canFire.length := by
    rw [← hgrants.length]
    exact (List.getElem?_eq_some_iff.mp hi).1
  obtain ⟨b, hb, -⟩ := hgrants.signal i hlt
  rw [hi, Option.map_some, Option.some.injEq] at hb
  rw [hb, eval_of_value_ofBool (hacc e he) hb]

/-- Where every signal is one bit, both encodings set the firing signal of the first rule that can
fire, and no other, whatever expressions the signals are. -/
theorem priority_law (canFire : List Expr) (env : Env)
    (hbits : ∀ c ∈ canFire, c ≠ .absent ∧ ∃ b, c.value env = .ok (.ofBool b)) :
    Lawful (Expr.value env) canFire ∧
    ((∀ c ∈ canFire, (Node.expr c).check = .ok ()) →
      Lawful (fun e => e.eval env) canFire) := by
  have hlaw := lawful_value hbits
  refine ⟨hlaw, fun hcheck => ?_⟩
  have hacc : ∀ c ∈ canFire, c.isPresent ∧ c.Accepted :=
    fun c hc => ⟨Expr.isPresent_iff.mpr (hbits c hc).1, hcheck c hc⟩
  have hcan : ∀ c ∈ canFire, c.value env = c.eval env := by
    intro c hc
    obtain ⟨-, b, hb⟩ := hbits c hc
    rw [hb, eval_of_value_ofBool (hacc c hc).2 hb]
  have hmasked : ∀ e ∈ priority canFire, e.Accepted :=
    maskedBy_accepted hacc (by decide)
  have hchained : ∀ e ∈ muxChains canFire, e.Accepted := by
    intro e he
    obtain ⟨i, -, rfl⟩ := List.mem_map.mp he
    exact (muxChain_accepted hacc i 0).2
  exact .of_grants (hlaw.masked.congr hcan (hlaw.masked.value_eq_eval hmasked))
    (hlaw.chained.congr hcan (hlaw.chained.value_eq_eval hchained))

/-- Three rules of which the last two can fire. -/
def threeRules : List Expr := [.lt (.ref "x") (.ref "y"), .ref "full", .eq (.ref "x") (.ref "x")]

def threeSignals : Env := ((Env.empty.bind "x" ⟨9, 4⟩).bind "y" ⟨7, 4⟩).bind "full" ⟨1, 1⟩

theorem priority_law_threeRules :
    Lawful (fun e => e.eval threeSignals) threeRules ∧
    (priority threeRules).map (fun e => e.eval threeSignals) =
      [.ok (.ofBool false), .ok (.ofBool true), .ok (.ofBool false)] := by
  have hbits : ∀ c ∈ threeRules,
      c ≠ .absent ∧ ∃ b, c.value threeSignals = .ok (.ofBool b) := by
    simp only [threeRules, List.forall_mem_cons, List.not_mem_nil, false_imp_iff, implies_true,
      and_true]
    exact ⟨⟨by decide, false, by decide +kernel⟩, ⟨by decide, true, by decide +kernel⟩,
      ⟨by decide, true, by decide +kernel⟩⟩
  exact ⟨(priority_law threeRules threeSignals hbits).2 (by decide +kernel), by decide +kernel⟩

end GuardedRtl.Schedule
