import GuardedRtl.Proofs.Meaning

/-! One clock cycle of a design and of its circuit. Of the rules whose conjuncts are all set the first
one fires, methods fire when they are ready and, if they are actions, enabled, and every register is
given what the first firing construct that updates it computes from the values at the start of the
cycle. Main statement: `elaborate_cycle`. -/

namespace GuardedRtl

open Rtl

/-! What a design means for one cycle -/

/-- Whether all conjuncts are set. -/
def Ready (r : Reading) (conjuncts : List Expr) : Prop := ∀ e ∈ conjuncts, (e.exact r).value = 1

instance (r : Reading) (conjuncts : List Expr) : Decidable (Ready r conjuncts) :=
  inferInstanceAs (Decidable (∀ e ∈ conjuncts, (e.exact r).value = 1))

/-- The updates of an element, in order, with the constructs that make them. -/
def Design.updatesOf (d : Design) (s : State) : List (Construct × Expr) :=
  d.constructs.flatMap fun c =>
    (c.core.updates.filter fun u => u.target = s).map fun u => (c, u.value)

/-- What an element is given: the value of the first update whose construct fires, or else its old
one, in as many bits as any of them takes. -/
def Design.next (d : Design) (r : Reading) (fires : Construct → Bool) (s : State) : Number :=
  let old := (Expr.leaf (.state s)).exact r
  ⟨match (d.updatesOf s).find? fun u => fires u.1 with
    | some u => (u.2.exact r).value
    | none => old.value,
    (d.updatesOf s).foldr (fun u width => max (u.2.exact r).width width) old.width⟩

/-- The design does what it means. `ready` says which rules and methods have all their conjuncts set,
`env` are the values at the start of the cycle and `settled` those at its end, and `outcomes` is what
the connections evaluate to. -/
structure Performs (d : Design) (names : StateNames) (r : Reading) (ready : Construct → Bool)
    (env settled : Env) (outcomes : List Driven) : Prop where
  canFire : ∀ c ∈ d.constructs, settled c.canFire = some (.ofBool (ready c))
  rules : ∀ earlier rule later, d.rules = earlier ++ rule :: later →
    settled (Construct.rule rule).firing =
      some (.ofBool (ready (.rule rule) && earlier.all fun e => !ready (.rule e)))
  actions : ∀ rule args, .action rule args ∈ d.methods →
    settled (Construct.method (.action rule args)).firing =
      some (.ofBool (ready (.method (.action rule args)) &&
        decide (env (Construct.method (.action rule args)).enable = some (.ofBool true))))
  values : ∀ rule type e, .value rule type e ∈ d.methods →
    settled (Construct.method (.value rule type e)).firing =
      some (.ofBool (ready (.method (.value rule type e)))) ∧
    ∃ v, settled (Construct.method (.value rule type e)).result = some v ∧ v.Holds (e.exact r)
  methods : ∀ m ∈ d.methods,
    settled (Construct.method m).ready = some (.ofBool (ready (.method m)))
  held : ∀ s x, (s, x) ∈ names → settled x = env x
  updated : ∀ s x, (s, x) ∈ names → d.Updates s →
    ∃ v : Value, v.Holds (d.next r (fun c => settled c.firing = some (.ofBool true)) s) ∧
      ∀ o, (x, o) ∈ outcomes ↔ o = .ok v
  untouched : ∀ s x, (s, x) ∈ names → ¬ d.Updates s → ∀ o, (x, o) ∉ outcomes
  evaluated : ∀ o ∈ outcomes, ∃ v, o.2 = .ok v

/-- Registers and inputs have well-formed values, and those that enable actions are single bits. -/
structure Supplied (d : Design) (names : StateNames) (m : Module) (env : Env) : Prop where
  registers : ∀ n ∈ names, ∃ v ∈ env n.2, v.WellFormed
  inputs : ∀ p ∈ m.ports, p.dir = .input → ∃ v ∈ env p.name, v.WellFormed
  enables : ∀ c ∈ d.constructs, .input c.enable .bit ∈ c.ports → ∀ v ∈ env c.enable, v.width = 1

instance (d : Design) (names : StateNames) (m : Module) (env : Env) :
    Decidable (Supplied d names m env) :=
  decidable_of_iff ((∀ n ∈ names, ∃ v ∈ env n.2, v.WellFormed) ∧
    (∀ p ∈ m.ports, p.dir = .input → ∃ v ∈ env p.name, v.WellFormed) ∧
    ∀ c ∈ d.constructs, .input c.enable .bit ∈ c.ports → ∀ v ∈ env c.enable, v.width = 1)
    ⟨fun h => ⟨h.1, h.2.1, h.2.2⟩, fun h => ⟨h.registers, h.inputs, h.enables⟩⟩

/-- What a construct computes: the values of its updates and its result. -/
def Construct.computed (c : Construct) : List Expr :=
  c.core.updates.map Update.value ++ match c with | .method (.value _ _ e) => [e] | _ => []

/-- The conjuncts evaluate to single bits, and all that the construct computes evaluates. -/
structure Evaluates (r : Reading) (conjuncts : List Expr) (c : Construct) : Prop where
  conjuncts : ∀ e ∈ conjuncts, e.Evaluable r ∧ (e.exact r).width = 1
  computed : ∀ e ∈ c.computed, e.Evaluable r

instance (r : Reading) (conjuncts : List Expr) (c : Construct) :
    Decidable (Evaluates r conjuncts c) :=
  decidable_of_iff ((∀ e ∈ conjuncts, e.Evaluable r ∧ (e.exact r).width = 1) ∧
    ∀ e ∈ c.computed, e.Evaluable r)
    ⟨fun h => ⟨h.1, h.2⟩, fun h => ⟨h.conjuncts, h.computed⟩⟩

/-! Guards -/

theorem conjoin_eq_none {es : List Expr} (h : conjoin es = none) : es = [] := by
  induction es using List.reverseRecOn with
  | nil => rfl
  | append_singleton es e _ =>
    rw [conjoin_concat] at h
    cases h

theorem parts_conjoin {es : List Expr} {g : Expr} (h : conjoin es = some g) :
    ∀ e ∈ es, e.parts ⊆ g.parts := by
  induction es using List.reverseRecOn generalizing g with
  | nil => exact List.forall_mem_nil _
  | append_singleton es e ih =>
    rw [conjoin_concat] at h
    cases hes : conjoin es with
    | none =>
      rw [hes] at h
      cases h
      rw [conjoin_eq_none hes]
      exact List.forall_mem_singleton.mpr (List.Subset.refl _)
    | some g' =>
      rw [hes] at h
      cases h
      refine List.forall_mem_append.mpr ⟨fun e' he' => ?_, List.forall_mem_singleton.mpr ?_⟩
      · have hsub := ih hes e' he'
        exact List.Subset.trans hsub (List.subset_cons_of_subset _ (List.subset_append_left ..))
      · exact List.subset_cons_of_subset _ (List.subset_append_right ..)

/-- A conjunction of single bits is set when all of them are. -/
theorem conjoin_value {names : StateNames} {env : Env} {p : Expr → Bool} {es : List Expr} {g : Expr}
    (h : conjoin es = some g) (hacc : (renamed names g).Accepted)
    (hvalue : ∀ e ∈ es, (renamed names e).Accepted →
      (renamed names e).value env = .ok (.ofBool (p e))) :
    (renamed names g).value env = .ok (.ofBool (es.all p)) := by
  induction es using List.reverseRecOn generalizing g with
  | nil => cases h
  | append_singleton es e ih =>
    obtain ⟨hes, he⟩ := List.forall_mem_append.mp hvalue
    have he := List.forall_mem_singleton.mp he
    rw [conjoin_concat] at h
    cases hconjoin : conjoin es with
    | none =>
      rw [hconjoin] at h
      cases h
      rw [conjoin_eq_none hconjoin]
      simpa using he hacc
    | some g' =>
      rw [hconjoin] at h
      cases h
      obtain ⟨-, hg', he'⟩ := (Expr.accepted_binary _ _ _).mp hacc
      rw [List.all_append, List.all_cons, List.all_nil, Bool.and_true]
      exact Schedule.value_and (ih hconjoin hg' hes) (he he')

theorem eq_ofBool_of_holds {v : Value} {n : Number} (h : v.Holds n) (hwidth : n.width = 1) :
    v = .ofBool (decide (n.value = 1)) := by
  obtain ⟨hbits, hw, hfits, -⟩ := h
  rw [hwidth] at hw hfits
  obtain ⟨bits, width⟩ := v
  have hwidth : width = 1 := Int64.toInt_inj.mp hw
  have hcases : n.value = 0 ∨ n.value = 1 := by omega
  rw [Value.ofBool, Value.mk.injEq]
  refine ⟨UInt64.toNat_inj.mp ?_, hwidth⟩
  rcases hcases with h | h <;> rw [hbits, h] <;> rfl

theorem eq_ofBool_of_wellFormed {v : Value} (h : v.WellFormed) (hwidth : v.width = 1) :
    ∃ b, v = .ofBool b := by
  refine ⟨_, eq_ofBool_of_holds h.holds ?_⟩
  rw [Value.number, hwidth]
  rfl

theorem eval_of_holds {e : Expr} {env : Env} {v : Value} {n : Number} (hacc : e.Accepted)
    (hv : e.value env = .ok v) (h : v.Holds n) : e.eval env = .ok v :=
  eval_eq_ok.mpr ⟨hacc, v, hv, mask_of_holds h⟩

/-- The first that is set in a list is the one at a given place if that one is set and none before
it is. -/
theorem findIdx?_split {α : Type} (f : α → Bool) (earlier : List α) (a : α) (later : List α) :
    decide (((earlier ++ a :: later).map f).findIdx? id = some earlier.length) =
      (f a && earlier.all fun x => !f x) := by
  induction earlier with
  | nil => cases h : f a <;> simp [List.findIdx?_cons, h]
  | cons x earlier ih =>
    cases hx : f x
    · rw [List.all_cons, hx, Bool.not_false, Bool.true_and, ← ih]
      simp [List.findIdx?_cons, hx]
    · simp [List.findIdx?_cons, hx]

theorem Rtl.Storage.IsNative.exists_register {s : Storage} (hnative : s.IsNative)
    (h : s ≠ .wire) : ∃ reset, s = .register reset := by
  cases s with
  | register reset => exact ⟨reset, rfl⟩
  | wire => exact absurd rfl h
  | foreign kind => exact hnative.elim

/-! Values settle as the design means -/

/-- What is known where a design has become a circuit and its inputs and registers have values. -/
structure Design.Setting (d : Design) (names : StateNames) (conjuncts : String → List Expr)
    (env : Env) : Prop where
  naming : d.Naming names
  closed : d.Closed
  coherent : ∀ c ∈ d.constructs, c.Coherent (conjuncts c.name)
  registers : ∀ n ∈ names, ∃ reset, n.1.storage = .register reset
  modest : ∀ c ∈ d.constructs, ∀ e ∈ c.expressions, e.ModestShifts
  accepted : ∀ lhs rhs, .connect lhs rhs ∈ (d.elaborated names).statements →
    rhs.isPresent ∧ rhs.Accepted
  supplied : Supplied d names (d.elaborated names) env
  evaluates : ∀ c ∈ d.constructs, Evaluates (leafReading names env) (conjuncts c.name) c

/-- The values at the end of a cycle. -/
def Design.settled (d : Design) (names : StateNames) (env : Env) : Env :=
  (Settling.run ⟨[], env⟩ (d.elaborated names).statements).1.env

theorem Construct.exists_input_port {c : Construct} {x : String} (h : x ∈ c.inputs) :
    ∃ p ∈ c.ports, p.dir = .input ∧ p.name = x := by
  cases c with
  | rule r => cases h
  | method m =>
    cases m with
    | action r args =>
      rcases List.mem_cons.mp h with rfl | h
      · exact ⟨_, List.mem_cons_self .., rfl, rfl⟩
      · obtain ⟨a, ha, rfl⟩ := List.mem_map.mp h
        refine ⟨.input a.port a.type, ?_, rfl, rfl⟩
        exact List.mem_append_left _ (List.mem_cons_of_mem _ (List.mem_map.mpr ⟨a, ha, rfl⟩))
    | value r type e => cases h

section

variable {d : Design} {names : StateNames}

theorem block_mem_body {c : Construct} (hc : c ∈ d.constructs) {s : Stmt}
    (hs : s ∈ (c.block names).statements) : s ∈ d.body names :=
  List.mem_append_left _ (List.mem_append_left _
    (List.mem_flatMap.mpr ⟨_, List.mem_map_of_mem hc, hs⟩))

theorem canFire_mem_body {c : Construct} (hc : c ∈ d.constructs) :
    .connect c.canFire (renamed names c.core.guard) ∈ d.body names :=
  block_mem_body hc (List.mem_cons_of_mem _ (List.mem_cons_of_mem _ (List.mem_cons_self ..)))

theorem output_mem_body {c : Construct} (hc : c ∈ d.constructs) {s : Stmt}
    (hs : s ∈ c.outputStatements names) : s ∈ d.body names :=
  block_mem_body hc (List.mem_append_right _ hs)

theorem ruleFiring_mem_body {i : ℕ} {r : Rule} {e : Expr} (hr : d.rules[i]? = some r)
    (he : (Schedule.priority (d.rules.map fun r => .ref (Construct.rule r).canFire))[i]? = some e) :
    .connect (Construct.rule r).firing e ∈ d.body names := by
  refine List.mem_append_left _ (List.mem_append_right _ (List.mem_append_left _ ?_))
  refine List.mem_iff_getElem?.mpr ⟨i, ?_⟩
  rw [scheduleRules, List.map_map, List.getElem?_zipWith, List.getElem?_map, hr]
  simp only [Function.comp_def, he, Option.map_some]

theorem methodFiring_mem_body {m : Method} (hm : m ∈ d.methods) :
    .connect (Construct.method m).firing (methodSignal m) ∈ d.body names := by
  refine List.mem_append_left _ (List.mem_append_right _ (List.mem_append_right _ ?_))
  refine List.mem_map.mpr ⟨m, hm, ?_⟩
  cases m <;> rfl

/-- A register is driven by a chain of all its drivers, if there are any. -/
theorem mem_drive_register {n : State × String} {reset : Option Int64} {ds : List Driver} {s : Stmt}
    (hregister : n.1.storage = .register reset) :
    s ∈ driveState n.2 n.1 ds ↔ ds ≠ [] ∧ s = .connect n.2 (select (.ref n.2) ds) := by
  cases ds with
  | nil => simp [driveState]
  | cons driver ds => simp [driveState, hregister]

end

namespace Design.Setting

variable {d : Design} {names : StateNames} {conjuncts : String → List Expr} {env : Env}

theorem solution (h : d.Setting names conjuncts env) :
    Solution (names.map Prod.snd).reverse (d.body names) env (d.settled names env)
      ((d.elaborated names).settle env) :=
  Design.solution h.closed h.naming h.registers env

/-- Inputs and registers keep their values while the others settle. -/
theorem frame (h : d.Setting names conjuncts env) {x : String}
    (hx : x ∈ d.inputs ∨ x ∈ names.map Prod.snd) : d.settled names env x = env x := by
  refine h.solution.frame x ?_
  rw [driven_body]
  rcases hx with hx | hx
  · exact .inr (List.count_eq_zero.mp (h.naming.driven_input hx))
  · exact .inl (List.mem_reverse.mpr hx)

theorem driven (h : d.Setting names conjuncts env) {c : Construct} (hc : c ∈ d.constructs) {x : String}
    (hx : x ∈ c.signals) {rhs : Expr} (hmem : .connect x rhs ∈ d.body names) {v : Value}
    (hv : rhs.eval (d.settled names env) = .ok v) : d.settled names env x = some v := by
  refine h.solution.solved x rhs hmem (fun hreg => ?_) v hv
  exact h.naming.signal_not_state (List.mem_flatMap.mpr ⟨c, hc, hx⟩) (List.mem_reverse.mp hreg)

theorem accepted_body (h : d.Setting names conjuncts env) {lhs : String} {rhs : Expr}
    (hmem : .connect lhs rhs ∈ d.body names) : rhs.isPresent ∧ rhs.Accepted := by
  refine h.accepted lhs rhs ?_
  rw [statements_body]
  exact List.mem_append_right _ hmem

theorem wellFormed (h : d.Setting names conjuncts env) {c : Construct} (hc : c ∈ d.constructs)
    {x : String} (hx : x ∈ c.inputs ∨ x ∈ names.map Prod.snd) :
    ∃ v, env x = some v ∧ v.WellFormed := by
  rcases hx with hx | hx
  · obtain ⟨p, hp, hdir, rfl⟩ := Construct.exists_input_port hx
    exact h.supplied.inputs p (List.mem_append_right _ (List.mem_flatMap.mpr ⟨c, hc, hp⟩)) hdir
  · obtain ⟨n, hn, rfl⟩ := List.mem_map.mp hx
    exact h.supplied.registers n hn

/-- What is part of an expression of a construct evaluates, in the circuit, to its exact value. -/
theorem lowered (h : d.Setting names conjuncts env) {c : Construct} (hc : c ∈ d.constructs)
    {whole e : Expr} (hwhole : whole ∈ c.expressions) (hsub : e.parts ⊆ whole.parts)
    (hpresent : e.isPresent) (hacc : (renamed names e).Accepted)
    (heval : e.Evaluable (leafReading names env)) :
    ∃ v, (renamed names e).value (d.settled names env) = .ok v ∧
      v.Holds (e.exact (leafReading names env)) := by
  have hplain : e.refs = [] := by
    have hwhole' := (h.closed c hc whole hwhole).2
    rw [Expr.refs_eq_nil_iff] at hwhole' ⊢
    exact fun p hp => hwhole' p (hsub hp)
  have hrefs : ∀ x ∈ (renamed names e).refs, x ∈ c.inputs ∨ x ∈ names.map Prod.snd := by
    intro x hx
    refine h.closed.refs h.naming hc hwhole (Expr.mem_refs.mpr ?_)
    rw [Expr.mem_refs, parts_renamed] at hx
    rw [parts_renamed]
    exact List.map_subset _ hsub hx
  have hmodest : (renamed names e).ModestShifts :=
    modestShifts_renamed fun a n hmem => h.modest c hc whole hwhole a n (hsub hmem)
  have hbenign : ∀ p ∈ (renamed names e).parts, p.Benign env := hmodest.benign fun x v hx hv => by
    obtain ⟨u, hu, hwell⟩ := h.wellFormed hc (hrefs x (Expr.mem_refs.mpr hx))
    rw [hu] at hv
    cases hv
    exact hwell
  have hagrees := value_agrees env _ (by rwa [isPresent_renamed]) hacc hbenign
  rw [evaluable_renamed hplain, exact_renamed hplain] at hagrees
  rw [Expr.value_congr fun x hx => h.frame ((hrefs x hx).imp_left (mem_inputs_of_mem hc))]
  exact hagrees.succeeds heval

/-- The guard of a construct is set when all its conjuncts are. -/
theorem guard_value (h : d.Setting names conjuncts env) {c : Construct} (hc : c ∈ d.constructs) :
    (renamed names c.core.guard).value (d.settled names env) =
      .ok (.ofBool (decide (Ready (leafReading names env) (conjuncts c.name)))) := by
  have hacc := (h.accepted_body (canFire_mem_body hc)).2
  obtain ⟨hguard, hgiven, -⟩ := h.coherent c hc
  cases hconjoin : conjoin (conjuncts c.name) with
  | none =>
    rw [hguard, hconjoin, conjoin_eq_none hconjoin]
    rfl
  | some g =>
    have hg : c.core.guard = g := by rw [hguard, hconjoin, Option.getD_some]
    rw [hg] at hacc ⊢
    have hmem : g ∈ c.expressions := hg ▸ List.mem_cons_self ..
    rw [conjoin_value (p := fun e => decide ((e.exact (leafReading names env)).value = 1)) hconjoin
      hacc]
    · congr 2
      rw [Bool.eq_iff_iff, List.all_eq_true, decide_eq_true_iff]
      simp only [decide_eq_true_iff, Ready]
    · intro e he hacc'
      obtain ⟨heval, hwidth⟩ := (h.evaluates c hc).conjuncts e he
      obtain ⟨v, hv, hholds⟩ :=
        h.lowered hc hmem (parts_conjoin hconjoin e he) (hgiven e he).1 hacc' heval
      rw [hv, eq_ofBool_of_holds hholds hwidth]

theorem canFire (h : d.Setting names conjuncts env) {c : Construct} (hc : c ∈ d.constructs) :
    d.settled names env c.canFire =
      some (.ofBool (decide (Ready (leafReading names env) (conjuncts c.name)))) := by
  have hmem : .connect c.canFire (renamed names c.core.guard) ∈ d.body names := canFire_mem_body hc
  exact h.driven hc c.canFire_mem_signals hmem
    (Schedule.eval_of_value_ofBool (h.accepted_body hmem).2 (h.guard_value hc))

theorem ref_value {x : String} {env : Env} {v : Value} (h : env x = some v) :
    (Expr.ref x).value env = .ok v := by
  rw [Expr.value, h]

theorem ready (h : d.Setting names conjuncts env) {m : Method} (hm : m ∈ d.methods) :
    d.settled names env (Construct.method m).ready =
      some (.ofBool (decide (Ready (leafReading names env)
        (conjuncts (Construct.method m).name)))) := by
  have hc := Design.method_mem hm
  have hmem : .connect (Construct.method m).ready (.ref (Construct.method m).canFire) ∈
      d.body names := by
    refine output_mem_body hc ?_
    cases m <;> exact List.mem_cons_self ..
  exact h.driven hc (Construct.output_mem_signals (ready_mem_outputs m)) hmem
    (Schedule.eval_of_value_ofBool (h.accepted_body hmem).2 (ref_value (h.canFire hc)))

theorem result_value (h : d.Setting names conjuncts env) {rule : Rule} {type : Ty} {e : Expr}
    (hc : .method (.value rule type e) ∈ d.constructs)
    (hacc : (renamed names e).isPresent ∧ (renamed names e).Accepted) :
    ∃ v, (renamed names e).value (d.settled names env) = .ok v ∧
      v.Holds (e.exact (leafReading names env)) := by
  rw [isPresent_renamed] at hacc
  exact h.lowered hc Construct.result_mem (List.Subset.refl _) hacc.1 hacc.2
    ((h.evaluates _ hc).computed e (List.mem_append_right _ (List.mem_singleton_self e)))

theorem result (h : d.Setting names conjuncts env) {rule : Rule} {type : Ty} {e : Expr}
    (hm : .value rule type e ∈ d.methods) :
    ∃ v, d.settled names env (Construct.method (.value rule type e)).result = some v ∧
      v.Holds (e.exact (leafReading names env)) := by
  have hc := Design.method_mem hm
  have hsignal : (Construct.method (.value rule type e)).result ∈
      (Construct.method (.value rule type e)).signals :=
    Construct.output_mem_signals (List.mem_cons_of_mem _ (List.mem_cons_self ..))
  have hmem : .connect (Construct.method (.value rule type e)).result (renamed names e) ∈
      d.body names :=
    output_mem_body hc (List.mem_cons_of_mem _ (List.mem_cons_self ..))
  have hacc := h.accepted_body hmem
  obtain ⟨v, hv, hholds⟩ := h.result_value hc hacc
  exact ⟨v, h.driven hc hsignal hmem (eval_of_holds hacc.2 hv hholds), hholds⟩

theorem rules_show (h : d.Setting names conjuncts env) :
    List.Forall₂ (Schedule.Shows (d.settled names env))
      (d.rules.map fun r => .ref (Construct.rule r).canFire)
      (d.rules.map fun r =>
        decide (Ready (leafReading names env) (conjuncts (Construct.rule r).name))) := by
  rw [List.forall₂_map_left_iff, List.forall₂_map_right_iff, List.forall₂_same]
  intro r hr
  exact ⟨rfl, ref_value (h.canFire (Design.rule_mem hr))⟩

theorem actionMethod_signal (h : d.Setting names conjuncts env) {rule : Rule} {args : List Argument}
    (hm : .action rule args ∈ d.methods) :
    (methodSignal (.action rule args)).value (d.settled names env) =
      .ok (.ofBool (decide (Ready (leafReading names env)
          (conjuncts (Construct.method (.action rule args)).name)) &&
        decide (env (Construct.method (.action rule args)).enable = some (.ofBool true)))) := by
  have hc := Design.method_mem hm
  have hinput : (Construct.method (.action rule args)).enable ∈
      (Construct.method (.action rule args)).inputs := List.mem_cons_self ..
  obtain ⟨v, hv, hwell⟩ := h.wellFormed hc (.inl hinput)
  obtain ⟨b, rfl⟩ := eq_ofBool_of_wellFormed hwell
    (h.supplied.enables _ hc (List.mem_append_left _ (List.mem_cons_self ..)) v hv)
  have henable := ref_value ((h.frame (.inl (mem_inputs_of_mem hc hinput))).trans hv)
  have hb : decide (env (Construct.method (.action rule args)).enable = some (.ofBool true)) = b := by
    rw [hv]
    cases b <;> decide
  rw [hb]
  exact Schedule.value_and (ref_value (h.canFire hc)) henable

theorem valueMethod_signal (h : d.Setting names conjuncts env) {rule : Rule} {type : Ty} {e : Expr}
    (hm : .value rule type e ∈ d.methods) :
    (methodSignal (.value rule type e)).value (d.settled names env) =
      .ok (.ofBool (decide (Ready (leafReading names env)
        (conjuncts (Construct.method (.value rule type e)).name)))) :=
  ref_value (h.canFire (Design.method_mem hm))

/-- Whatever decides whether something fires is a single bit. -/
theorem firingSignal_value (h : d.Setting names conjuncts env) {e : Expr} (he : e ∈ d.firingSignals) :
    ∃ b, e.value (d.settled names env) = .ok (.ofBool b) := by
  rcases List.mem_append.mp he with he | he
  · obtain ⟨i, hi⟩ := List.mem_iff_getElem?.mp he
    have hlt := (List.getElem?_eq_some_iff.mp hi).1
    rw [Schedule.priority, Schedule.length_maskedBy] at hlt
    obtain ⟨e', he', hv⟩ := Schedule.priority_value h.rules_show i hlt
    rw [hi] at he'
    cases he'
    exact ⟨_, hv⟩
  · obtain ⟨m, hm, rfl⟩ := List.mem_map.mp he
    cases m with
    | action rule args => exact ⟨_, h.actionMethod_signal hm⟩
    | value rule type e => exact ⟨_, h.valueMethod_signal hm⟩

theorem ruleFiring (h : d.Setting names conjuncts env) {earlier later : List Rule} {rule : Rule}
    (hrules : d.rules = earlier ++ rule :: later) :
    d.settled names env (Construct.rule rule).firing =
      some (.ofBool (decide (Ready (leafReading names env) (conjuncts (Construct.rule rule).name)) &&
        earlier.all fun r => !decide (Ready (leafReading names env)
          (conjuncts (Construct.rule r).name)))) := by
  have hrule : d.rules[earlier.length]? = some rule := by rw [hrules]; simp
  obtain ⟨e, he, hv⟩ := Schedule.priority_value h.rules_show earlier.length (by rw [hrules]; simp)
  have hbody : .connect (Construct.rule rule).firing e ∈ d.body names := ruleFiring_mem_body hrule he
  have hmem := Design.rule_mem (List.mem_of_getElem? hrule)
  rw [hrules, findIdx?_split] at hv
  exact h.driven hmem (Construct.firing_mem_signals _) hbody
    (Schedule.eval_of_value_ofBool (h.accepted_body hbody).2 hv)

theorem methodFiring (h : d.Setting names conjuncts env) {m : Method} (hm : m ∈ d.methods) {b : Bool}
    (hv : (methodSignal m).value (d.settled names env) = .ok (.ofBool b)) :
    d.settled names env (Construct.method m).firing = some (.ofBool b) := by
  have hc := Design.method_mem hm
  have hbody : .connect (Construct.method m).firing (methodSignal m) ∈ d.body names :=
    methodFiring_mem_body hm
  exact h.driven hc (Construct.firing_mem_signals _) hbody
    (Schedule.eval_of_value_ofBool (h.accepted_body hbody).2 hv)

/-- Every firing signal is a single bit. -/
theorem firing (h : d.Setting names conjuncts env) {c : Construct} (hc : c ∈ d.constructs) :
    ∃ b, d.settled names env c.firing = some (.ofBool b) := by
  rcases List.mem_append.mp hc with hc | hc
  · obtain ⟨r, hr, rfl⟩ := List.mem_map.mp hc
    obtain ⟨earlier, later, hrules⟩ := List.append_of_mem hr
    exact ⟨_, h.ruleFiring hrules⟩
  · obtain ⟨m, hm, rfl⟩ := List.mem_map.mp hc
    cases m with
    | action rule args => exact ⟨_, h.methodFiring hm (h.actionMethod_signal hm)⟩
    | value rule type e => exact ⟨_, h.methodFiring hm (h.valueMethod_signal hm)⟩

/-- What a chain of drivers selects. -/
theorem select_value {r : Reading} {settled : Env} {default : Expr} (fires : Construct → Bool)
    {us : List (Construct × Expr)} {v : Value} {old : Number}
    (hdefault : default.value settled = .ok v) (hold : v.Holds old)
    (hfires : ∀ u ∈ us, settled u.1.firing = some (.ofBool (fires u.1)))
    (hvalues : ∀ u ∈ us, ∃ v, (renamed names u.2).value settled = .ok v ∧ v.Holds (u.2.exact r))
    (s : State) :
    ∃ v, (select default (us.map fun u => ⟨s, .ref u.1.firing, renamed names u.2⟩)).value settled =
      .ok v ∧ v.Holds ⟨match us.find? fun u => fires u.1 with
        | some u => (u.2.exact r).value
        | none => old.value,
        us.foldr (fun u width => max (u.2.exact r).width width) old.width⟩ := by
  induction us with
  | nil => exact ⟨v, hdefault, hold⟩
  | cons u us ih =>
    obtain ⟨hfire, hfires⟩ := List.forall_mem_cons.mp hfires
    obtain ⟨⟨x, hx, hxholds⟩, hvalues⟩ := List.forall_mem_cons.mp hvalues
    obtain ⟨y, hy, hyholds⟩ := ih hfires hvalues
    obtain ⟨w, hw, hwholds⟩ := (mux_agrees hxholds hyholds (holds_ofBool (fires u.1))).succeeds
      (max_le hxholds.narrow hyholds.narrow)
    refine ⟨w, ?_, ?_⟩
    · rw [List.map_cons, select, Expr.value, ref_value hfire, hx, hy]
      exact hw
    · cases hu : fires u.1 <;> simpa [Number.mux, Number.ofBool, hu] using hwholds

theorem drivers_eq (s : State) :
    driversOf (d.constructs.map (Construct.block names)) s =
      (d.updatesOf s).map fun u => ⟨s, .ref u.1.firing, renamed names u.2⟩ := by
  rw [driversOf_block, Design.updatesOf, List.map_flatMap]
  refine List.flatMap_congr fun c _ => ?_
  rw [List.map_map]
  refine List.map_congr_left fun u hu => ?_
  have htarget : u.target = s := by simpa using (List.mem_filter.mp hu).2
  simp only [updateDriver, htarget, Function.comp_apply]

theorem accepted_select {default : Expr} {ds : List Driver} (h : (select default ds).Accepted) :
    ∀ driver ∈ ds, driver.value.isPresent ∧ driver.value.Accepted := by
  induction ds with
  | nil => exact List.forall_mem_nil _
  | cons driver ds ih =>
    obtain ⟨⟨-, hpresent, -⟩, -, hacc, hrest⟩ := (Expr.accepted_mux _ _ _).mp h
    exact List.forall_mem_cons.mpr ⟨⟨hpresent, hacc⟩, ih hrest⟩

theorem drive_mem (h : d.Setting names conjuncts env) {s : State} {x : String} (hn : (s, x) ∈ names)
    (hupdates : d.Updates s) :
    .connect x (select (.ref x) (driversOf (d.constructs.map (Construct.block names)) s)) ∈
      d.body names := by
  obtain ⟨reset, hregister⟩ := h.registers _ hn
  refine List.mem_append_right _ (List.mem_flatMap.mpr ⟨(s, x), hn, ?_⟩)
  refine (mem_drive_register hregister).mpr ⟨fun hnil => ?_, rfl⟩
  exact driversOf_eq_nil.mp hnil hupdates

/-- What drives a register has the next value of its element. -/
theorem drive (h : d.Setting names conjuncts env) {s : State} {x : String} (hn : (s, x) ∈ names)
    (hupdates : d.Updates s) :
    ∃ v, (select (.ref x) (driversOf (d.constructs.map (Construct.block names)) s)).eval
        (d.settled names env) = .ok v ∧
      v.Holds (d.next (leafReading names env)
        (fun c => d.settled names env c.firing = some (.ofBool true)) s) := by
  have hacc := (h.accepted_body (h.drive_mem hn hupdates)).2
  have hvalues := accepted_select hacc
  rw [drivers_eq] at hacc hvalues ⊢
  obtain ⟨old, hold, hwell⟩ := h.supplied.registers _ hn
  have hsettled : d.settled names env x = some old :=
    (h.frame (.inr (List.mem_map_of_mem hn))).trans hold
  have hleaf : (Expr.leaf (.state s)).exact (leafReading names env) = old.number := by
    change ((env (names.get s)).map Value.number).getD ⟨0, 0⟩ = old.number
    rw [StateNames.get_of_mem h.naming.states hn, show env x = some old from hold]
    rfl
  have hupdate : ∀ u ∈ d.updatesOf s, u.1 ∈ d.constructs ∧
      ∃ update ∈ u.1.core.updates, u.2 = update.value := by
    intro u hu
    obtain ⟨c, hc, hu⟩ := List.mem_flatMap.mp hu
    obtain ⟨update, hupdate, rfl⟩ := List.mem_map.mp hu
    exact ⟨hc, update, List.mem_of_mem_filter hupdate, rfl⟩
  have hfires : ∀ u ∈ d.updatesOf s, d.settled names env u.1.firing =
      some (.ofBool (decide (d.settled names env u.1.firing = some (.ofBool true)))) := by
    intro u hu
    obtain ⟨b, hb⟩ := h.firing (hupdate u hu).1
    rw [hb]
    cases b <;> decide
  have hlowered : ∀ u ∈ d.updatesOf s, ∃ v, (renamed names u.2).value (d.settled names env) = .ok v ∧
      v.Holds (u.2.exact (leafReading names env)) := by
    intro u hu
    obtain ⟨hc, update, hmem', heq⟩ := hupdate u hu
    obtain ⟨hpresent, hacc'⟩ := hvalues _ (List.mem_map_of_mem hu)
    rw [isPresent_renamed] at hpresent
    have heval : u.2.Evaluable (leafReading names env) :=
      (h.evaluates u.1 hc).computed u.2 (List.mem_append_left _ (heq ▸ List.mem_map_of_mem hmem'))
    exact h.lowered hc (heq ▸ (Construct.update_mem hmem').2) (List.Subset.refl _) hpresent hacc' heval
  obtain ⟨v, hv, hholds⟩ := select_value
    (fun c => decide (d.settled names env c.firing = some (.ofBool true)))
    (ref_value hsettled) hwell.holds hfires hlowered s
  refine ⟨v, eval_of_holds hacc hv hholds, ?_⟩
  simpa only [Design.next, hleaf] using hholds

theorem block_evaluated (h : d.Setting names conjuncts env) {c : Construct} (hc : c ∈ d.constructs)
    {lhs : String} {rhs : Expr} (hmem : .connect lhs rhs ∈ (c.block names).statements) :
    ∃ v, rhs.eval (d.settled names env) = .ok v := by
  have hacc := h.accepted_body (block_mem_body hc hmem)
  rcases List.mem_append.mp hmem with hmem | hmem
  · simp only [List.mem_cons, reduceCtorEq, false_or, Stmt.connect.injEq] at hmem
    rcases hmem with ⟨-, rfl⟩ | hmem
    · exact ⟨_, Schedule.eval_of_value_ofBool hacc.2 (h.guard_value hc)⟩
    · obtain ⟨e, -, he⟩ := List.mem_map.mp hmem
      cases e <;> cases he
  · rcases mem_outputStatements hmem with ⟨m, rfl, heq⟩ | ⟨r, type, e, rfl, heq⟩
    · cases heq
      exact ⟨_, Schedule.eval_of_value_ofBool hacc.2 (ref_value (h.canFire hc))⟩
    · cases heq
      obtain ⟨v, hv, hholds⟩ := h.result_value hc hacc
      exact ⟨v, eval_of_holds hacc.2 hv hholds⟩

/-- Every connection evaluates. -/
theorem evaluated (h : d.Setting names conjuncts env) {lhs : String} {rhs : Expr}
    (hmem : .connect lhs rhs ∈ d.body names) : ∃ v, rhs.eval (d.settled names env) = .ok v := by
  have hmem' := hmem
  rcases List.mem_append.mp hmem' with hmem' | hmem'
  · rcases List.mem_append.mp hmem' with hmem' | hmem'
    · obtain ⟨b, hb, hmem'⟩ := List.mem_flatMap.mp hmem'
      obtain ⟨c, hc, rfl⟩ := List.mem_map.mp hb
      exact h.block_evaluated hc hmem'
    · obtain ⟨c, -, e, he, heq⟩ := mem_scheduler hmem'
      cases heq
      obtain ⟨b, hb⟩ := h.firingSignal_value he
      exact ⟨_, Schedule.eval_of_value_ofBool (h.accepted_body hmem).2 hb⟩
  · obtain ⟨⟨s, x⟩, hn, hmem'⟩ := List.mem_flatMap.mp hmem'
    obtain ⟨reset, hregister⟩ := h.registers _ hn
    obtain ⟨hdrivers, heq⟩ := (mem_drive_register hregister).mp hmem'
    cases heq
    have hupdates : d.Updates s := not_not.mp fun hnot => hdrivers (driversOf_eq_nil.mpr hnot)
    obtain ⟨v, heval, -⟩ := h.drive hn hupdates
    exact ⟨v, heval⟩

end Design.Setting

/-- The circuit of a finished design does in one cycle what the design means. -/
theorem elaborate_cycle (id : ℕ) (name : String) (calls : List Call) (d : Design) (circuit : Circuit)
    (m : Module) (names : StateNames) (env : Env)
    (hdesign : ((BuildSession.start id name).run calls).design = .ok d)
    (helaborate : d.elaborate = .ok circuit) (hmodule : circuit.modules = [m])
    (hnames : d.stateNames = .ok names)
    (hregisters : ∀ n ∈ names, n.1.storage ≠ .wire)
    (hplain : ∀ c ∈ d.constructs, ∀ e ∈ c.expressions, e.refs = [])
    (hshifts : ∀ c ∈ d.constructs, ∀ e ∈ c.expressions, e.ModestShifts)
    (hsupplied : Supplied d names m env)
    (hevaluates : ∀ c ∈ d.constructs, Evaluates (leafReading names env)
      (((BuildSession.start id name).run calls).conjuncts c.name) c) :
    Performs d names (leafReading names env)
      (fun c => Ready (leafReading names env)
        (((BuildSession.start id name).run calls).conjuncts c.name))
      env (Settling.run ⟨[], env⟩ m.statements).1.env (m.settle env) := by
  obtain ⟨names', hnames', hnaming, rfl, hcheck⟩ := Design.elaborate_naming helaborate
  rw [hnames] at hnames'
  cases hnames'
  cases hmodule
  have hcoherent := BuildSession.coherent hdesign
  have h : d.Setting names ((BuildSession.start id name).run calls).conjuncts env :=
    { naming := hnaming
      closed := fun c hc e he => ⟨(hcoherent c hc).expressions e he, hplain c hc e he⟩
      coherent := hcoherent
      registers := fun n hn => (hnaming.native n hn).exists_register (hregisters n hn)
      modest := hshifts
      accepted := fun lhs rhs hmem => accepted_of_check hcheck hmem
      supplied := hsupplied
      evaluates := hevaluates }
  refine
    { canFire := fun c hc => h.canFire hc
      rules := fun earlier rule later hrules => h.ruleFiring hrules
      actions := fun rule args hm => h.methodFiring hm (h.actionMethod_signal hm)
      values := fun rule type e hm => ⟨h.methodFiring hm (h.valueMethod_signal hm), h.result hm⟩
      methods := fun m hm => h.ready hm
      held := fun s x hn => h.frame (.inr (List.mem_map_of_mem hn))
      updated := fun s x hn hupdates => ?_
      untouched := fun s x hn hupdates o ho => ?_
      evaluated := fun o ho => ?_ }
  · obtain ⟨v, heval, hholds⟩ := h.drive hn hupdates
    refine ⟨v, hholds, fun o => ?_⟩
    have honce := hnaming.driven_nodup
    rw [← driven_body] at honce
    rw [h.solution.outcome_unique honce (h.drive_mem hn hupdates), heval]
  · obtain ⟨rhs, hmem, -⟩ := h.solution.mem_outcomes.mp ho
    have hcount := hnaming.driven_state hn
    rw [if_neg hupdates, List.count_eq_zero, ← driven_body] at hcount
    exact hcount (List.mem_flatMap.mpr ⟨_, hmem, List.mem_singleton_self x⟩)
  · obtain ⟨rhs, hmem, heq⟩ := h.solution.mem_outcomes.mp ho
    rw [← heq]
    exact h.evaluated hmem

/-! A design in which all rules and methods are ready and three of them update the same register. The
first rule wins over the second, and its update over that of the action, which fires as well. -/

namespace Racing

def a : State := ⟨0, .register (some 0), "a", .uint 4⟩

def b : State := ⟨1, .register none, "b", .uint 4⟩

def operand : Argument := ⟨0, "set", "v", .uint 4⟩

def below : Expr := .lt (.leaf (.state a)) (.unsigned 9 4)

def nonzero : Expr := .ne (.leaf (.state b)) (.unsigned 0 4)

def successor : Expr := .tail (.add (.leaf (.state a)) (.unsigned 1 4)) 1

def calls : List Call := [
  .declare [some a, some b],
  .rule "bump",
  .edit "bump" (.guard below),
  .edit "bump" (.guard nonzero),
  .edit "bump" (.update (some a) successor),
  .edit "bump" .build,
  .rule "swap",
  .edit "swap" (.update (some a) (.leaf (.state b))),
  .edit "swap" (.update (some b) (.leaf (.state a))),
  .edit "swap" .build,
  .action "set" [⟨"v", .uint 4⟩],
  .edit "set" (.update (some a) (.leaf (.argument operand))),
  .edit "set" .build,
  .value "sum" (.uint 5),
  .edit "sum" (.result (.add (.leaf (.state a)) (.leaf (.state b)))),
  .edit "sum" .build]

def design : Design where
  name := "R"
  state := [a, b]
  rules := [
    ⟨"bump", .and below nonzero, [], [⟨a, successor⟩]⟩,
    ⟨"swap", .one, [], [⟨a, .leaf (.state b)⟩, ⟨b, .leaf (.state a)⟩]⟩]
  methods := [
    .action ⟨"set", .one, [], [⟨a, .leaf (.argument operand)⟩]⟩ [operand],
    .value ⟨"sum", .one, [], []⟩ (.uint 5) (.add (.leaf (.state a)) (.leaf (.state b)))]

def names : StateNames := [(a, "R_a"), (b, "R_b")]

def env : Env :=
  (((((Env.empty.bind "R_a" ⟨3, 4⟩).bind "R_b" ⟨5, 4⟩).bind "set_v" ⟨7, 4⟩).bind
    "set_enable" ⟨1, 1⟩).bind "clk" ⟨0, 1⟩).bind "reset" ⟨0, 1⟩

end Racing

theorem elaborate_cycle_racing :
    ((BuildSession.start 0 "R").run Racing.calls).design = .ok Racing.design ∧
    Performs Racing.design Racing.names (leafReading Racing.names Racing.env)
      (fun c => Ready (leafReading Racing.names Racing.env)
        (((BuildSession.start 0 "R").run Racing.calls).conjuncts c.name))
      Racing.env
      (Settling.run ⟨[], Racing.env⟩ (Racing.design.elaborated Racing.names).statements).1.env
      ((Racing.design.elaborated Racing.names).settle Racing.env) ∧
    ((Racing.design.elaborated Racing.names).settle Racing.env).filter
      (fun o => o.1 ∈ Racing.names.map Prod.snd) = [("R_a", .ok ⟨4, 4⟩), ("R_b", .ok ⟨5, 4⟩)] := by
  have hdesign : ((BuildSession.start 0 "R").run Racing.calls).design = .ok Racing.design := by
    decide +kernel
  refine ⟨hdesign, ?_, by decide +kernel⟩
  exact elaborate_cycle 0 "R" Racing.calls Racing.design
    ⟨"R", [Racing.design.elaborated Racing.names]⟩ (Racing.design.elaborated Racing.names)
    Racing.names Racing.env hdesign (by decide +kernel) rfl (by decide +kernel) (by decide +kernel)
    (by decide +kernel) (by decide +kernel) (by decide +kernel) (by decide +kernel)

end GuardedRtl
