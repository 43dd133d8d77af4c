import GuardedRtl.Proofs.Meaning
import GuardedRtl.Proofs.Lowerable

/-! What a design needs to have a circuit. Whatever elaboration adds of its own passes the check, so
that only the types and the expressions of a design can fail it, and the elements of its state have
the names that they ask for where these are free. Main statement: `Design.elaborate_eq`. -/

namespace GuardedRtl

open Rtl

namespace Rtl

theorem requireName_ok {kind name : String} (h : name ≠ "") : requireName kind name = .ok () :=
  if_neg h

theorem requireType_ok {kind : String} {t : Ty} (h : t.isPresent) : requireType kind t = .ok () :=
  if_pos h

/-- Whether the type is there and passes the check. -/
def Ty.Accepted (t : Ty) : Prop := t.isPresent ∧ AllAccepted t.trees

theorem Ty.accepted_uint {width : Int64} (h : 0 ≤ width) : (Ty.uint width).Accepted :=
  ⟨rfl, allAccepted_singleton.mpr ⟨if_neg (Int64.not_lt.mpr h), rfl, allAccepted_nil⟩⟩

theorem Ty.accepted_bit : Ty.bit.Accepted := Ty.accepted_uint (by decide)

theorem Expr.accepted_ref {x : String} (h : x ≠ "") : (Expr.ref x).Accepted :=
  (Expr.accepted_node rfl rfl).mpr ⟨requireName_ok h, allAccepted_nil⟩

/-- Whether the statement is there and passes the check. -/
def Stmt.Accepted (s : Stmt) : Prop := s.isPresent ∧ AllAccepted s.trees

namespace Stmt

theorem accepted_connect {lhs : String} {rhs : Expr} (hlhs : lhs ≠ "")
    (hrhs : rhs.isPresent ∧ rhs.Accepted) : (connect lhs rhs).Accepted := by
  have hself : (connect lhs rhs).checkSelf = .ok () :=
    (if_neg hlhs).trans (requireOperands_ok.mpr (List.forall_mem_singleton.mpr hrhs.1))
  refine ⟨rfl, allAccepted_singleton.mpr ⟨hself, rfl, ?_⟩⟩
  exact allAccepted_append.mpr ⟨Expr.accepted_ref hlhs, hrhs.2⟩

theorem accepted_wire {name : String} {t : Ty} (hname : name ≠ "") (ht : t.Accepted) :
    (wire name t).Accepted := by
  refine ⟨rfl, allAccepted_singleton.mpr ⟨?_, rfl, ht.2⟩⟩
  simp only [Node.checkSelf, checkSelf, requireName_ok hname, requireType_ok ht.1]
  rfl

theorem accepted_register {name : String} {t : Ty} {clock : Expr} {reset : Option Reset}
    (hname : name ≠ "") (ht : t.Accepted) (hclock : clock.isPresent ∧ clock.Accepted)
    (hreset : ∀ r ∈ reset, (r.enable.isPresent ∧ r.value.isPresent) ∧
      r.enable.Accepted ∧ r.value.Accepted) : (register name t clock reset).Accepted := by
  refine ⟨rfl, allAccepted_singleton.mpr ⟨?_, rfl, ?_⟩⟩
  · have hoperands : requireOperands "Register" [("Clock", clock)] = .ok () :=
      requireOperands_ok.mpr (List.forall_mem_singleton.mpr hclock.1)
    simp only [Node.checkSelf, checkSelf, requireName_ok hname, requireType_ok ht.1, hoperands]
    rfl
  · refine allAccepted_append.mpr ⟨allAccepted_append.mpr ⟨ht.2, hclock.2⟩, ?_⟩
    cases reset with
    | none => exact allAccepted_nil
    | some r =>
      obtain ⟨hpresent, haccepted⟩ := hreset r rfl
      have hoperands :
          requireOperands "Reset" [("Enable", r.enable), ("Value", r.value)] = .ok () :=
        requireOperands_ok.mpr (by simpa using hpresent)
      exact allAccepted_singleton.mpr ⟨hoperands, rfl, allAccepted_append.mpr haccepted⟩

theorem accepted_printf {clock condition : Expr} {format : Text.Bytes} {args : List Expr}
    (hclock : clock.isPresent ∧ clock.Accepted)
    (hcondition : condition.isPresent ∧ condition.Accepted)
    (hargs : ∀ e ∈ args, e.isPresent ∧ e.Accepted) :
    (printf clock condition format args).Accepted := by
  refine ⟨rfl, allAccepted_singleton.mpr ⟨?_, rfl, ?_⟩⟩
  · refine (if_pos (List.all_eq_true.mpr fun e he => (hargs e he).1)).trans ?_
    exact requireOperands_ok.mpr (by simpa using ⟨hclock.1, hcondition.1⟩)
  · refine allAccepted_append.mpr ⟨allAccepted_append.mpr ⟨hclock.2, hcondition.2⟩, ?_⟩
    exact allAccepted_flatMap.mpr fun e he => (hargs e he).2

theorem accepted_stop {clock condition : Expr} {exitCode : Int64}
    (hclock : clock.isPresent ∧ clock.Accepted)
    (hcondition : condition.isPresent ∧ condition.Accepted) :
    (stop clock condition exitCode).Accepted := by
  refine ⟨rfl, allAccepted_singleton.mpr ⟨requireOperands_ok.mpr ?_, rfl, ?_⟩⟩
  · simpa using ⟨hclock.1, hcondition.1⟩
  · exact allAccepted_append.mpr ⟨hclock.2, hcondition.2⟩

end Stmt

theorem Port.accepted {p : Port} (hname : p.name ≠ "") (htype : p.type.Accepted)
    (hdir : p.dir.isKnown) : AllAccepted [p.tree] := by
  refine allAccepted_singleton.mpr ⟨?_, rfl, htype.2⟩
  simp only [Node.checkSelf, requireName_ok hname, requireType_ok htype.1, if_pos hdir]
  rfl

theorem Circuit.check_single {m : Module} (hname : m.name ≠ "")
    (hports : ∀ p ∈ m.ports, p.name ≠ "" ∧ p.type.Accepted ∧ p.dir.isKnown)
    (hstatements : ∀ s ∈ m.statements, s.Accepted) :
    (Node.circuit ⟨m.name, [m]⟩).check = .ok () := by
  have hmodule : (Node.module m).checkSelf = .ok () := by
    have hpresent : m.statements.all Stmt.isPresent :=
      List.all_eq_true.mpr fun s hs => (hstatements s hs).1
    simp only [Node.checkSelf, requireName_ok hname, if_pos hpresent]
    rfl
  have hports' : AllAccepted (m.ports.map Port.tree) := by
    rw [List.map_eq_flatMap, allAccepted_flatMap]
    intro p hp
    obtain ⟨hname, htype, hdir⟩ := hports p hp
    exact Port.accepted hname htype hdir
  have hstatements' : AllAccepted (m.statements.flatMap Stmt.trees) :=
    allAccepted_flatMap.mpr fun s hs => (hstatements s hs).2
  refine allAccepted_singleton.mpr ⟨requireName_ok hname, rfl, ?_⟩
  exact allAccepted_singleton.mpr ⟨hmodule, rfl, allAccepted_append.mpr ⟨hports', hstatements'⟩⟩

end Rtl

/-! The names of state elements -/

/-- The name that an element asks for. -/
def wantedName (design : String) (s : State) : String := design ++ "_" ++ State.effectiveHint s

theorem Names.fresh_free {ns : Names} {base : String} (h : base ∉ ns.taken) :
    ns.fresh base = (base, ⟨base :: ns.taken⟩) := by
  rw [fresh, freshName, if_neg h]

theorem nameState_wanted {design : String} {ns : Names} {ss : List State}
    (hfree : ∀ s ∈ ss, wantedName design s ∉ ns.taken)
    (hnodup : (ss.map (wantedName design)).Nodup) :
    nameState design ns ss = ss.map fun s => (s, wantedName design s) := by
  induction ss generalizing ns with
  | nil => rfl
  | cons s ss ih =>
    obtain ⟨hs, hss⟩ := List.forall_mem_cons.mp hfree
    obtain ⟨hnew, hnodup⟩ := List.nodup_cons.mp hnodup
    have hfresh : ns.fresh (design ++ "_" ++ State.effectiveHint s) =
        (wantedName design s, ⟨wantedName design s :: ns.taken⟩) := Names.fresh_free hs
    rw [nameState, hfresh, List.map_cons]
    refine congrArg _ (ih (fun s' hs' htaken => ?_) hnodup)
    rcases List.mem_cons.mp htaken with heq | htaken
    · exact hnew (heq ▸ List.mem_map_of_mem hs')
    · exact hss s' hs' htaken

/-! The statements of a circuit -/

theorem joined_ne (a b : String) : a ++ "_" ++ b ≠ "" := by
  intro h
  rw [← String.toList_inj, String.toList_append, String.toList_append] at h
  simp at h

theorem Construct.signal_ne (c : Construct) (suffix : String) : c.signal suffix ≠ "" :=
  joined_ne c.name suffix

theorem Construct.port_named {c : Construct} {p : Port} (h : p ∈ c.ports) :
    p.name ≠ "" ∧ p.dir.isKnown := by
  cases c with
  | rule r => cases h
  | method m =>
    cases m with
    | action r args =>
      simp only [ports, List.mem_append, List.mem_cons, List.mem_map, List.not_mem_nil,
        or_false] at h
      rcases h with (rfl | ⟨a, -, rfl⟩) | rfl
      · exact ⟨signal_ne _ _, rfl⟩
      · exact ⟨joined_ne a.method a.name, rfl⟩
      · exact ⟨signal_ne _ _, rfl⟩
    | value r type e =>
      simp only [ports, List.mem_cons, List.not_mem_nil, or_false] at h
      rcases h with rfl | rfl <;> exact ⟨signal_ne _ _, rfl⟩

/-- The types and the expressions of a design pass the check, and what is to be named has a name. -/
structure Design.Admissible (d : Design) (names : StateNames) : Prop where
  name : d.name ≠ ""
  native : names.Native
  states : ∀ n ∈ names, n.2 ≠ "" ∧ n.1.type.Accepted
  resets : ∀ n ∈ names, ∀ v, n.1.storage = .register (some v) → (Expr.literal v n.1.type).Accepted
  ports : ∀ c ∈ d.constructs, ∀ p ∈ c.ports, p.type.Accepted
  expressions : ∀ c ∈ d.constructs, ∀ e ∈ c.expressions, e.isPresent ∧ (renamed names e).Accepted

section

variable {d : Design} {names : StateNames}

theorem accepted_signal (c : Construct) (suffix : String) :
    (Expr.ref (c.signal suffix)).isPresent ∧ (Expr.ref (c.signal suffix)).Accepted :=
  ⟨rfl, Expr.accepted_ref (c.signal_ne suffix)⟩

theorem accepted_clock : (Expr.ref clockName).isPresent ∧ (Expr.ref clockName).Accepted := by
  decide

namespace Design.Admissible

theorem accepted_renamed (h : d.Admissible names) {c : Construct} (hc : c ∈ d.constructs) {e : Expr}
    (he : e ∈ c.expressions) : (renamed names e).isPresent ∧ (renamed names e).Accepted := by
  rw [isPresent_renamed]
  exact h.expressions c hc e he

theorem accepted_declaration (h : d.Admissible names) {n : State × String} (hn : n ∈ names) :
    (declaration n).Accepted := by
  obtain ⟨hname, htype⟩ := h.states n hn
  have hnative := h.native n hn
  rw [declaration, declareState]
  cases hstorage : n.1.storage with
  | register reset =>
    refine Stmt.accepted_register hname htype accepted_clock fun r hr => ?_
    cases reset with
    | none => cases hr
    | some v =>
      cases hr
      exact ⟨⟨rfl, rfl⟩, Expr.accepted_ref (by decide), h.resets n hn v hstorage⟩
  | wire => exact Stmt.accepted_wire hname htype
  | foreign kind =>
    rw [hstorage] at hnative
    exact hnative.elim

theorem accepted_block (h : d.Admissible names) {c : Construct} (hc : c ∈ d.constructs) :
    ∀ s ∈ (c.block names).statements, s.Accepted := by
  intro s hs
  rcases List.mem_append.mp hs with hs | hs
  · simp only [List.mem_cons] at hs
    rcases hs with rfl | rfl | rfl | hs
    · exact Stmt.accepted_wire (c.signal_ne _) Ty.accepted_bit
    · exact Stmt.accepted_wire (c.signal_ne _) Ty.accepted_bit
    · exact Stmt.accepted_connect (c.signal_ne _) (h.accepted_renamed hc (List.mem_cons_self ..))
    · obtain ⟨effect, heffect, rfl⟩ := List.mem_map.mp hs
      cases effect with
      | finish exitCode => exact Stmt.accepted_stop accepted_clock (accepted_signal c _)
      | display format args =>
        refine Stmt.accepted_printf accepted_clock (accepted_signal c _) ?_
        exact List.forall_mem_map.mpr fun e he =>
          h.accepted_renamed hc (Construct.display_mem heffect he)
  · rcases mem_outputStatements hs with ⟨m, rfl, rfl⟩ | ⟨r, type, e, rfl, rfl⟩
    · exact Stmt.accepted_connect (Construct.signal_ne _ _) (accepted_signal _ _)
    · exact Stmt.accepted_connect (Construct.signal_ne _ _)
        (h.accepted_renamed hc Construct.result_mem)

end Design.Admissible

theorem maskedBy_present {cs : List Expr} (h : ∀ c ∈ cs, c.isPresent) (earlier : Expr) :
    ∀ e ∈ Schedule.maskedBy earlier cs, e.isPresent := by
  induction cs generalizing earlier with
  | nil => exact List.forall_mem_nil _
  | cons c cs ih =>
    obtain ⟨hc, hcs⟩ := List.forall_mem_cons.mp h
    rw [Schedule.maskedBy]
    split_ifs
    · exact List.forall_mem_cons.mpr ⟨rfl, ih hcs _⟩
    · exact List.forall_mem_cons.mpr ⟨hc, ih hcs _⟩

theorem accepted_firingSignal {e : Expr} (he : e ∈ d.firingSignals) : e.isPresent ∧ e.Accepted := by
  rcases List.mem_append.mp he with he | he
  · have hsignals : ∀ c ∈ d.rules.map fun r => Expr.ref (Construct.rule r).canFire,
        c.isPresent ∧ c.Accepted := List.forall_mem_map.mpr fun r _ => accepted_signal _ _
    exact ⟨maskedBy_present (fun c hc => (hsignals c hc).1) _ e he,
      Schedule.maskedBy_accepted hsignals (by decide) e he⟩
  · obtain ⟨m, -, rfl⟩ := List.mem_map.mp he
    cases m with
    | action r args =>
      have hcan := accepted_signal (.method (.action r args)) "can_fire"
      have henable := accepted_signal (.method (.action r args)) "enable"
      exact ⟨rfl, (Expr.accepted_binary _ _ _).mpr ⟨⟨rfl, rfl, rfl⟩, hcan.2, henable.2⟩⟩
    | value r type e => exact accepted_signal _ _

/-- What a driver is made of passes the check. -/
def Driver.Accepted (driver : Driver) : Prop :=
  (driver.firing.isPresent ∧ driver.firing.Accepted) ∧
    driver.value.isPresent ∧ driver.value.Accepted

theorem select_accepted {default : Expr} {ds : List Driver}
    (hdefault : default.isPresent ∧ default.Accepted) (hds : ∀ driver ∈ ds, driver.Accepted) :
    (select default ds).isPresent ∧ (select default ds).Accepted := by
  induction ds with
  | nil => exact hdefault
  | cons driver ds ih =>
    obtain ⟨⟨hfiring, hvalue⟩, hds⟩ := List.forall_mem_cons.mp hds
    obtain ⟨hpresent, haccepted⟩ := ih hds
    exact ⟨rfl, (Expr.accepted_mux _ _ _).mpr
      ⟨⟨hfiring.1, hvalue.1, hpresent⟩, hfiring.2, hvalue.2, haccepted⟩⟩

theorem selectLast_accepted {driver : Driver} {ds : List Driver} (hdriver : driver.Accepted)
    (hds : ∀ driver ∈ ds, driver.Accepted) :
    (selectLast driver ds).isPresent ∧ (selectLast driver ds).Accepted := by
  induction ds generalizing driver with
  | nil => exact hdriver.2
  | cons next ds ih =>
    obtain ⟨hfiring, hvalue⟩ := hdriver
    obtain ⟨hnext, hds⟩ := List.forall_mem_cons.mp hds
    obtain ⟨hpresent, haccepted⟩ := ih hnext hds
    exact ⟨rfl, (Expr.accepted_mux _ _ _).mpr
      ⟨⟨hfiring.1, hvalue.1, hpresent⟩, hfiring.2, hvalue.2, haccepted⟩⟩

theorem anyFiring_accepted {driver : Driver} {ds : List Driver} (hdriver : driver.Accepted)
    (hds : ∀ driver ∈ ds, driver.Accepted) :
    (anyFiring driver ds).isPresent ∧ (anyFiring driver ds).Accepted := by
  induction ds using List.reverseRecOn with
  | nil => exact hdriver.1
  | append_singleton ds last ih =>
    obtain ⟨hds, hlast⟩ := List.forall_mem_append.mp hds
    obtain ⟨hpresent, haccepted⟩ := ih hds
    obtain ⟨hfiring, -⟩ := List.forall_mem_singleton.mp hlast
    rw [anyFiring, List.foldl_append]
    exact ⟨rfl, (Expr.accepted_binary _ _ _).mpr ⟨⟨rfl, hpresent, hfiring.1⟩, haccepted, hfiring.2⟩⟩

theorem accepted_driveState {n : State × String} {ds : List Driver} (hname : n.2 ≠ "")
    (hds : ∀ driver ∈ ds, driver.Accepted) : ∀ s ∈ driveState n.2 n.1 ds, s.Accepted := by
  cases ds with
  | nil => exact List.forall_mem_nil _
  | cons driver ds =>
    obtain ⟨hdriver, hds'⟩ := List.forall_mem_cons.mp hds
    rw [driveState]
    cases n.1.storage with
    | register reset =>
      refine List.forall_mem_singleton.mpr (Stmt.accepted_connect hname ?_)
      exact select_accepted ⟨rfl, Expr.accepted_ref hname⟩ hds
    | wire =>
      obtain ⟨hany, hany'⟩ := anyFiring_accepted hdriver hds'
      obtain ⟨hlast, hlast'⟩ := selectLast_accepted hdriver hds'
      refine List.forall_mem_singleton.mpr (Stmt.accepted_connect hname ⟨rfl, ?_⟩)
      exact (Expr.accepted_validIf _ _).mpr ⟨⟨hany, hlast⟩, hany', hlast'⟩
    | foreign kind => exact List.forall_mem_nil _

namespace Design.Admissible

theorem accepted_drivers (h : d.Admissible names) (s : State) :
    ∀ driver ∈ driversOf (d.constructs.map (Construct.block names)) s, driver.Accepted := by
  rw [driversOf_block]
  intro driver hdriver
  obtain ⟨c, hc, hdriver⟩ := List.mem_flatMap.mp hdriver
  obtain ⟨u, hu, rfl⟩ := List.mem_map.mp hdriver
  have hvalue := (Construct.update_mem (List.mem_of_mem_filter hu)).2
  exact ⟨accepted_signal c _, h.accepted_renamed hc hvalue⟩

theorem accepted_statements (h : d.Admissible names) :
    ∀ s ∈ (d.elaborated names).statements, s.Accepted := by
  rw [statements_body]
  refine List.forall_mem_append.mpr ⟨List.forall_mem_map.mpr fun n hn => ?_, ?_⟩
  · exact h.accepted_declaration hn
  refine List.forall_mem_append.mpr ⟨List.forall_mem_append.mpr ⟨?_, ?_⟩, ?_⟩ <;> intro s hs
  · obtain ⟨b, hb, hs⟩ := List.mem_flatMap.mp hs
    obtain ⟨c, hc, rfl⟩ := List.mem_map.mp hb
    exact h.accepted_block hc s hs
  · obtain ⟨c, -, e, he, rfl⟩ := mem_scheduler hs
    exact Stmt.accepted_connect (c.signal_ne _) (accepted_firingSignal he)
  · obtain ⟨n, hn, hs⟩ := List.mem_flatMap.mp hs
    exact accepted_driveState (h.states n hn).1 (h.accepted_drivers n.1) s hs

theorem check (h : d.Admissible names) :
    (Node.circuit ⟨d.name, [d.elaborated names]⟩).check = .ok () := by
  refine Circuit.check_single (m := d.elaborated names) h.name (fun p hp => ?_)
    h.accepted_statements
  rcases List.mem_append.mp hp with hp | hp
  · simp only [Port.standard, List.mem_cons, List.not_mem_nil, or_false] at hp
    rcases hp with rfl | rfl
    · exact ⟨by decide, ⟨rfl, rfl⟩, rfl⟩
    · exact ⟨by decide, Ty.accepted_bit, rfl⟩
  · obtain ⟨c, hc, hp⟩ := List.mem_flatMap.mp hp
    obtain ⟨hname, hdir⟩ := Construct.port_named hp
    exact ⟨hname, h.ports c hc p hp, hdir⟩

end Design.Admissible

end

/-- A design whose state has names, and of which all that the check looks at passes it, has a
circuit. -/
theorem Design.elaborate_eq {d : Design} {names : StateNames} (hnames : d.stateNames = .ok names)
    (hwithin : ∀ c ∈ d.constructs, ∀ e ∈ c.expressions, e.Within c.args)
    (hadmissible : d.Admissible names) : d.elaborate = .ok ⟨d.name, [d.elaborated names]⟩ :=
  elaborate_eq_ok.mpr ⟨names, hnames, hadmissible.native,
    fun c hc e he => (hwithin c hc e he).lowerable, rfl, hadmissible.check⟩

end GuardedRtl
