import GuardedRtl.Proofs.Construction

/-! Refused calls. A call that fails changes nothing but the record of the first error. A draft that
is open and has failed stays open: whatever else is called, an attempt to finish it gives its first
failure, and a design is finished when all its drafts are, without an error. `Draft.Move` says what
one call can do to what is on record, `Builder.Move` what it does to the drafts. Main statement:
`refusals_sticky`. -/

namespace GuardedRtl

open Rtl

/-! Parts of a call -/

section

variable {σ α β : Type} {x : ExceptT Error (StateM σ) α} {f : α → ExceptT Error (StateM σ) β} {s s' : σ}

theorem run_bind_of_ok {a : α} (h : x.run.run s = (.ok a, s')) :
    (x >>= f).run.run s = (f a).run.run s' := by
  change (ExceptT.bindCont f (x.run.run s).1).run (x.run.run s).2 = _
  rw [h]
  rfl

theorem run_bind_of_error {e : Error} (h : x.run.run s = (.error e, s')) :
    (x >>= f).run.run s = (.error e, s') := by
  change (ExceptT.bindCont f (x.run.run s).1).run (x.run.run s).2 = _
  rw [h]
  rfl

end

namespace Drafting

/-- The work fails and changes nothing. -/
def Rejects (x : Drafting Unit) (d : Draft) : Prop := ∃ e, x.run.run d = (.error e, d)

/-- The work changes nothing, or fails and puts the error on record. -/
def Screens (x : Drafting Unit) (d : Draft) : Prop :=
  x.run.run d = (.ok (), d) ∨ ∃ e, x.run.run d = (.error e, d.recordError e)

/-- The work leaves the record as it is, or fails and puts the error on record. -/
def Settles (x : Drafting Unit) (d : Draft) : Prop :=
  (∃ e, x.run.run d = (.error e, d.recordError e)) ∨
    ∃ d', x.run.run d = (.ok (), d') ∧ d'.built = d.built ∧ d'.error = d.error

variable {x : Drafting Unit} {d : Draft} {f : Unit → Drafting Unit}

theorem Screens.bind (hx : Screens x d) (hf : Settles (f ()) d) : Settles (x >>= f) d := by
  rcases hx with hrun | ⟨e, hrun⟩
  · unfold Settles
    rwa [run_bind_of_ok hrun]
  · exact .inl ⟨e, run_bind_of_error hrun⟩

theorem Rejects.bind (hx : Rejects x d) : Rejects (x >>= f) d := by
  obtain ⟨e, hrun⟩ := hx
  exact ⟨e, run_bind_of_error hrun⟩

theorem Rejects.bind_of_ok (hx : x.run.run d = (.ok (), d)) (hf : Rejects (f ()) d) :
    Rejects (x >>= f) d := by
  unfold Rejects
  rwa [run_bind_of_ok hx]

end Drafting

namespace Draft

open Drafting

variable {d : Draft}

theorem requireOpen_of_open (hopen : d.built = false) (field : String) :
    (requireOpen field).run.run d = (.ok (), d) := by
  rw [requireOpen, run_getThe_bind, hopen]
  rfl

theorem requireOpen_rejects (hbuilt : d.built) (field : String) : Rejects (requireOpen field) d := by
  unfold Rejects
  rw [requireOpen, run_getThe_bind, if_pos hbuilt]
  exact ⟨_, rfl⟩

/-- Whether the draft is one of a value method. -/
def isValue (d : Draft) : Bool :=
  match d.role with
  | .value _ _ => true
  | _ => false

theorem requireRule_of_not_value (hrole : d.isValue = false) :
    requireRule.run.run d = (.ok (), d) := by
  rw [requireRule, run_getThe_bind]
  split
  · rename_i hvalue
    simp [isValue, hvalue] at hrole
  · rfl

theorem requireRule_rejects (hrole : d.isValue) : Rejects requireRule d := by
  unfold Rejects
  rw [requireRule, run_getThe_bind]
  split
  · exact ⟨_, rfl⟩
  · rename_i hnot
    unfold isValue at hrole
    split at hrole
    · exact absurd ‹_› (hnot _ _)
    · cases hrole

theorem requireExpr_screens (field : String) (e : Expr) : Screens (requireExpr field e) d := by
  unfold Screens
  rw [requireExpr, run_getThe_bind]
  split
  · exact .inl rfl
  · exact .inr ⟨_, rfl⟩

theorem requireExprs_screens (field : String) (es : List Expr) :
    Screens (requireExprs field es) d := by
  induction es with
  | nil => exact .inl rfl
  | cons e es ih =>
    unfold Screens
    rw [requireExprs]
    rcases requireExpr_screens field e with hrun | ⟨err, hrun⟩
    · rwa [run_bind_of_ok hrun]
    · exact .inr ⟨err, run_bind_of_error hrun⟩

theorem addGuard_settles (hopen : d.built = false) (e : Expr) : Settles (addGuard e) d :=
  Screens.bind (.inl (requireOpen_of_open hopen _)) <|
    (requireExpr_screens _ e).bind (.inr ⟨_, rfl, rfl, rfl⟩)

theorem addUpdate_settles (hopen : d.built = false) (hrole : d.isValue = false)
    (target : Option State) (value : Expr) : Settles (addUpdate target value) d := by
  refine Screens.bind (.inl (requireRule_of_not_value hrole)) ?_
  refine Screens.bind (.inl (requireOpen_of_open hopen _)) ?_
  unfold Settles
  rw [run_getThe_bind]
  split
  · exact .inl ⟨_, rfl⟩
  · split_ifs
    · exact .inl ⟨_, rfl⟩
    · exact (requireExpr_screens _ value).bind (.inr ⟨_, rfl, rfl, rfl⟩)

theorem addDisplay_settles (hopen : d.built = false) (format : Text.Bytes) (args : List Expr) :
    Settles (addDisplay format args) d :=
  Screens.bind (.inl (requireOpen_of_open hopen _)) <|
    (requireExprs_screens _ args).bind (.inr ⟨_, rfl, rfl, rfl⟩)

theorem addFinish_settles (hopen : d.built = false) (hrole : d.isValue = false) (exitCode : Int64) :
    Settles (addFinish exitCode) d :=
  Screens.bind (.inl (requireRule_of_not_value hrole)) <|
    Screens.bind (.inl (requireOpen_of_open hopen _)) (.inr ⟨_, rfl, rfl, rfl⟩)

theorem setResult_settles (hopen : d.built = false) (hrole : d.isValue) (e : Expr) :
    Settles (setResult e) d := by
  refine Screens.bind (.inl (requireOpen_of_open hopen _)) ?_
  unfold Settles
  rw [run_getThe_bind]
  unfold isValue at hrole
  split
  · exact (requireExpr_screens _ e).bind (.inr ⟨_, rfl, rfl, rfl⟩)
  · exact .inl ⟨_, rfl⟩
  · rename_i hnone hsome
    split at hrole
    · rename_i type result hvalue
      cases result with
      | none => exact absurd hvalue (hnone type)
      | some e => exact absurd hvalue (hsome type e)
    · cases hrole

theorem setResult_rejects (hrole : d.isValue = false) (e : Expr) : Rejects (setResult e) d := by
  cases hbuilt : d.built with
  | true => exact (requireOpen_rejects hbuilt _).bind
  | false =>
    refine Rejects.bind_of_ok (requireOpen_of_open hbuilt _) ?_
    unfold Rejects
    rw [run_getThe_bind]
    split
    · rename_i hvalue
      simp [isValue, hvalue] at hrole
    · rename_i hvalue
      simp [isValue, hvalue] at hrole
    · exact ⟨_, rfl⟩

/-! Finishing a draft -/

/-- What is wrong with a value method that has no result. -/
def missingReturn (d : Draft) : Error := d.problem "ret" .missingReturn

theorem freeze_of_built (h : d.built) : ∃ e, freeze.run.run d = (.error e, d) := by
  rw [freeze, run_getThe_bind, if_pos h]
  exact ⟨_, rfl⟩

theorem freeze_of_error (hopen : d.built = false) {e : Error} (h : d.error = some e) :
    freeze.run.run d = (.error e, d) := by
  rw [freeze, run_getThe_bind, hopen, h]
  rfl

theorem freeze_of_construct (hopen : d.built = false) (herror : d.error = none) {c : Construct}
    (hc : d.toConstruct? = some c) : freeze.run.run d = (.ok c, { d with built := true }) := by
  rw [freeze, run_getThe_bind, hopen, herror, hc]
  rfl

theorem finish_of_construct {c : Construct} (hc : d.toConstruct? = some c) :
    finish.run.run d = freeze.run.run d := by
  rw [finish, run_getThe_bind]
  split
  · rename_i hrole
    simp [toConstruct?, hrole] at hc
  · rfl

theorem finish_of_built (h : d.built) : finish.run.run d = freeze.run.run d := by
  rw [finish, run_getThe_bind]
  split
  · rw [h]
    rfl
  · rfl

theorem finish_of_missing (hopen : d.built = false) (hc : d.toConstruct? = none) :
    finish.run.run d = (.error (d.error.getD d.missingReturn), d.recordError d.missingReturn) := by
  rw [finish, run_getThe_bind]
  split
  · rw [hopen]
    change freeze.run.run (d.recordError d.missingReturn) = _
    refine freeze_of_error (d := d.recordError d.missingReturn) hopen ?_
    cases h : d.error <;> simp [recordError, h]
  · rename_i hrole
    unfold toConstruct? at hc
    split at hc
    · cases hc
    · cases hc
    · rename_i type result hvalue
      cases result with
      | none => exact absurd hvalue (hrole type)
      | some e => cases hc

end Draft

/-! Failures -/

/-- Whether there is the call for a draft. Value methods neither update state nor end the simulation,
and only they have a result. -/
def Draft.offers (d : Draft) : DraftCall → Bool
  | .update _ _ => !d.isValue
  | .stop _ => !d.isValue
  | .result _ => d.isValue
  | _ => true

/-- Whether the call gives something to the draft. -/
def DraftCall.gives : DraftCall → Bool
  | .argument _ => false
  | .build => false
  | .buildRule => false
  | _ => true

def DraftCall.error? (call : DraftCall) (d : Draft) : Option Error :=
  match (call.work.run.run d).1 with
  | .ok () => none
  | .error e => some e

/-- The failure of a call on an open draft. Asking for an argument is one if the draft has no such
argument, and finishing it if it needs a result and has none. -/
def Draft.failure? (d : Draft) (call : DraftCall) : Option Error :=
  if d.built || !d.offers call then none
  else match call with
    | .argument name =>
      if name ∈ d.args.map Argument.name then none else some (d.problem name .unknownField)
    | .build => if d.toConstruct?.isSome then none else some d.missingReturn
    | .buildRule => none
    | call => call.error? d

/-- All that a call can do to what is on record for a draft. -/
inductive Draft.Move (d : Draft) (call : DraftCall) : Except Error Unit → Draft → Prop
  | kept {r : Except Error Unit} (hnone : d.failure? call = none) : Move d call r d
  | failed {r : Except Error Unit} {e : Error} (hopen : d.built = false)
      (hfails : d.failure? call = some e) : Move d call r (d.recordError e)
  | changed {d' : Draft} (hopen : d.built = false) (hnone : d.failure? call = none)
      (hbuilt : d'.built = false) (herror : d'.error = d.error) : Move d call (.ok ()) d'
  | closed (hopen : d.built = false) (hnone : d.failure? call = none) (herror : d.error = none)
      (hconstruct : d.toConstruct?.isSome) : Move d call (.ok ()) { d with built := true }
  | asked {name : String} (hbuilt : d.built) (hcall : call = .argument name)
      (hname : name ∉ d.args.map Argument.name) :
      Move d call (.ok ()) (d.recordError (d.problem name .unknownField))

namespace Draft

open Drafting

variable {d : Draft} {call : DraftCall}

theorem failure?_of_built (h : d.built) (call : DraftCall) : d.failure? call = none := by
  simp [failure?, h]

theorem Move.of_rejects (hnone : d.failure? call = none) (h : Rejects call.work d) :
    d.Move call (call.work.run.run d).1 (call.work.run.run d).2 := by
  obtain ⟨e, hrun⟩ := h
  rw [hrun]
  exact .kept hnone

theorem Move.of_settles (hopen : d.built = false) (hfailure : d.failure? call = call.error? d)
    (h : Settles call.work d) :
    d.Move call (call.work.run.run d).1 (call.work.run.run d).2 := by
  unfold DraftCall.error? at hfailure
  rcases h with ⟨e, hrun⟩ | ⟨d', hrun, hbuilt, herror⟩
  · rw [hrun] at hfailure ⊢
    exact .failed hopen hfailure
  · rw [hrun] at hfailure ⊢
    exact .changed hopen hfailure (hbuilt.trans hopen) herror

theorem argument_of_mem {name : String} (h : name ∈ d.args.map Argument.name) :
    ∃ l, (argument name).run.run d = (.ok l, d) := by
  rw [argument, run_getThe_bind]
  split
  · exact ⟨_, rfl⟩
  · rename_i hnone
    obtain ⟨a, ha, rfl⟩ := List.mem_map.mp h
    exact absurd (decide_eq_true rfl) (List.find?_eq_none.mp hnone a ha)

theorem argument_of_not_mem {name : String} (h : name ∉ d.args.map Argument.name) :
    (argument name).run.run d =
      (.ok .unboundArgument, d.recordError (d.problem name .unknownField)) := by
  rw [argument, run_getThe_bind]
  split
  · rename_i a ha
    have hname : a.name = name := by simpa using List.find?_some ha
    exact absurd (List.mem_map.mpr ⟨a, List.mem_of_find?_eq_some ha, hname⟩) h
  · rfl

theorem argument_move (name : String) :
    d.Move (.argument name) ((DraftCall.argument name).work.run.run d).1
      ((DraftCall.argument name).work.run.run d).2 := by
  unfold DraftCall.work
  by_cases hname : name ∈ d.args.map Argument.name
  · obtain ⟨l, hrun⟩ := argument_of_mem hname
    rw [run_bind_of_ok hrun]
    exact .kept (by simp [failure?, hname])
  · rw [run_bind_of_ok (argument_of_not_mem hname)]
    cases hbuilt : d.built with
    | true => exact .asked hbuilt rfl hname
    | false => exact .failed hbuilt (by simp [failure?, offers, hbuilt, hname])

/-- Closing an open draft that has all it needs. -/
theorem Move.of_freeze {x : Drafting Construct} (hopen : d.built = false)
    (hnone : d.failure? call = none) {c : Construct} (hc : d.toConstruct? = some c)
    (hx : x.run.run d = freeze.run.run d) :
    d.Move call ((do let _ ← x : Drafting Unit).run.run d).1
      ((do let _ ← x : Drafting Unit).run.run d).2 := by
  cases herror : d.error with
  | some e =>
    rw [run_bind_of_error (hx.trans (freeze_of_error hopen herror))]
    exact .kept hnone
  | none =>
    rw [run_bind_of_ok (hx.trans (freeze_of_construct hopen herror hc))]
    exact .closed hopen hnone herror (by rw [hc, Option.isSome_some])

theorem build_move :
    d.Move .build (DraftCall.build.work.run.run d).1 (DraftCall.build.work.run.run d).2 := by
  unfold DraftCall.work
  cases hbuilt : d.built with
  | true =>
    obtain ⟨e, hrun⟩ := freeze_of_built hbuilt
    rw [run_bind_of_error ((finish_of_built hbuilt).trans hrun)]
    exact .kept (failure?_of_built hbuilt _)
  | false =>
    cases hc : d.toConstruct? with
    | none =>
      rw [run_bind_of_error (finish_of_missing hbuilt hc)]
      exact .failed hbuilt (by simp [failure?, offers, hbuilt, hc])
    | some c =>
      exact .of_freeze hbuilt (by simp [failure?, hc]) hc (finish_of_construct hc)

theorem finishRule_of_rule (h : d.role = .rule) : finishRule.run.run d = freeze.run.run d := by
  rw [finishRule, run_getThe_bind, h]

theorem finishRule_of_not_rule (h : d.role ≠ .rule) :
    ∃ e, finishRule.run.run d = (.error e, d) := by
  rw [finishRule, run_getThe_bind]
  split
  · exact absurd ‹_› h
  · exact ⟨_, rfl⟩

theorem buildRule_move :
    d.Move .buildRule (DraftCall.buildRule.work.run.run d).1
      (DraftCall.buildRule.work.run.run d).2 := by
  have hnone : d.failure? .buildRule = none := by simp [failure?]
  unfold DraftCall.work
  by_cases hrole : d.role = .rule
  · have hrun := finishRule_of_rule hrole
    cases hbuilt : d.built with
    | true =>
      obtain ⟨e, hfreeze⟩ := freeze_of_built hbuilt
      rw [run_bind_of_error (hrun.trans hfreeze)]
      exact .kept hnone
    | false =>
      have hc : d.toConstruct? = some (.rule d.toRule) := by rw [toConstruct?, hrole]
      exact .of_freeze hbuilt hnone hc hrun
  · obtain ⟨e, hrun⟩ := finishRule_of_not_rule hrole
    rw [run_bind_of_error hrun]
    exact .kept hnone

theorem rejects_of_not_offered (h : d.offers call = false) : Rejects call.work d := by
  cases call with
  | update target value => exact (requireRule_rejects (by simpa [offers] using h)).bind
  | stop exitCode => exact (requireRule_rejects (by simpa [offers] using h)).bind
  | result e => exact setResult_rejects h e
  | _ => cases h

theorem rejects_of_built (hbuilt : d.built) (hgives : call.gives) : Rejects call.work d := by
  have hopen (field : String) := requireOpen_rejects hbuilt field
  have hrule {f : Unit → Drafting Unit} (hf : Rejects (f ()) d) : Rejects (requireRule >>= f) d := by
    cases hrole : d.isValue with
    | true => exact (requireRule_rejects hrole).bind
    | false => exact .bind_of_ok (requireRule_of_not_value hrole) hf
  cases call with
  | guard e => exact (hopen _).bind
  | update target value => exact hrule (hopen _).bind
  | display format args => exact (hopen _).bind
  | stop exitCode => exact hrule (hopen _).bind
  | result e => exact (hopen _).bind
  | _ => cases hgives

theorem settles_of_open (hopen : d.built = false) (hoffers : d.offers call) (hgives : call.gives) :
    Settles call.work d := by
  cases call with
  | guard e => exact addGuard_settles hopen e
  | update target value => exact addUpdate_settles hopen (by simpa [offers] using hoffers) target value
  | display format args => exact addDisplay_settles hopen format args
  | stop exitCode => exact addFinish_settles hopen (by simpa [offers] using hoffers) exitCode
  | result e => exact setResult_settles hopen hoffers e
  | _ => cases hgives

theorem Move.of_gives (hgives : call.gives) :
    d.Move call (call.work.run.run d).1 (call.work.run.run d).2 := by
  cases hoffers : d.offers call with
  | false => exact .of_rejects (by simp [failure?, hoffers]) (rejects_of_not_offered hoffers)
  | true =>
    cases hbuilt : d.built with
    | true => exact .of_rejects (failure?_of_built hbuilt _) (rejects_of_built hbuilt hgives)
    | false =>
      refine .of_settles hbuilt ?_ (settles_of_open hbuilt hoffers hgives)
      cases call with
      | argument name => cases hgives
      | build => cases hgives
      | buildRule => cases hgives
      | _ => simp [failure?, hbuilt, hoffers]

theorem work_move (d : Draft) (call : DraftCall) :
    d.Move call (call.work.run.run d).1 (call.work.run.run d).2 := by
  cases call with
  | argument name => exact argument_move name
  | build => exact build_move
  | buildRule => exact buildRule_move
  | _ => exact .of_gives rfl

end Draft

/-! Calls on a builder -/

/-- All that a call can do to the drafts of a builder. -/
inductive Builder.Move (b : Builder) : Call → Builder → Prop
  | kept {call : Call} {b' : Builder}
      (hcall : ∀ name edit, call = .edit name edit → b.draft? name = none)
      (hdrafts : b'.drafts = b.drafts) : Move b call b'
  | added {call : Call} {b' : Builder} {d : Draft} (hcall : ∀ name edit, call ≠ .edit name edit)
      (hopen : d.built = false) (herror : d.error = none) (hfresh : d.name ∉ b.drafts.map Draft.name)
      (hdrafts : b'.drafts = b.drafts ++ [d]) : Move b call b'
  | edited {name : String} {call : DraftCall} {d : Draft} (hd : b.draft? name = some d) :
      Move b (.edit name call) (b.replaceDraft (call.work.run.run d).2)

namespace Builder

variable {b b' : Builder} {name : String} {d : Draft}

theorem edit_of_none {α : Type} {work : Drafting α} (h : b.draft? name = none) :
    (edit name work).run.run b = (.error (b.problem name .unknownField), b) := by
  rw [edit, run_getThe_bind, h]
  rfl

theorem edit_of_some {α : Type} {work : Drafting α} (h : b.draft? name = some d) :
    (edit name work).run.run b = ((work.run.run d).1, b.replaceDraft (work.run.run d).2) := by
  rw [edit, run_getThe_bind, h]
  exact ofExcept_run (work.run.run d).1 (b.replaceDraft (work.run.run d).2)

theorem Move.unchanged {call : Call} (hcall : ∀ name edit, call ≠ .edit name edit) :
    b.Move call b :=
  .kept (fun name edit heq => absurd heq (hcall name edit)) rfl

theorem Move.of_accept {call : Call} {r : Except Error Unit} (h : (accept d).run.run b = (r, b'))
    (hcall : ∀ name edit, call ≠ .edit name edit) (hopen : d.built = false) (herror : d.error = none)
    (hname : b.checkName d.name = .ok ()) : b.Move call b' := by
  rcases accept_cases h with ⟨-, rfl⟩ | ⟨-, -, rfl⟩
  · exact .unchanged hcall
  · exact .added hcall hopen herror (checkName_ok hname).2 rfl

theorem addRule_move {r : Except Error Unit} (h : (addRule name).run.run b = (r, b')) :
    b.Move (.rule name) b' := by
  have hcall : ∀ x edit, Call.rule name ≠ .edit x edit := fun _ _ heq => by cases heq
  rw [addRule, run_getThe_bind] at h
  rcases ofExcept_bind_cases h with ⟨-, rfl⟩ | ⟨⟨⟩, hname, h⟩
  · exact .unchanged hcall
  · exact .of_accept h hcall rfl rfl hname

theorem addAction_move {args : List Field} {r : Except Error Unit}
    (h : (addAction name args).run.run b = (r, b')) : b.Move (.action name args) b' := by
  have hcall : ∀ x edit, Call.action name args ≠ .edit x edit := fun _ _ heq => by cases heq
  rw [addAction, run_getThe_bind] at h
  rcases ofExcept_bind_cases h with ⟨-, rfl⟩ | ⟨⟨⟩, hname, h⟩
  · exact .unchanged hcall
  rcases ofExcept_bind_cases h with ⟨-, rfl⟩ | ⟨args', -, h⟩
  · exact .unchanged hcall
  · exact .of_accept h hcall rfl rfl hname

theorem addValue_move {type : Ty} {r : Except Error Unit}
    (h : (addValue name type).run.run b = (r, b')) : b.Move (.value name type) b' := by
  have hcall : ∀ x edit, Call.value name type ≠ .edit x edit := fun _ _ heq => by cases heq
  rw [addValue, run_getThe_bind] at h
  split_ifs at h
  · cases h
    exact .unchanged hcall
  rcases ofExcept_bind_cases h with ⟨-, rfl⟩ | ⟨⟨⟩, hname, h⟩
  · exact .unchanged hcall
  · exact .of_accept h hcall rfl rfl hname

theorem work_move (b : Builder) (call : Call) : b.Move call (call.work.run.run b).2 := by
  cases call with
  | declare states => exact .kept (fun _ _ heq => by cases heq) (declare_drafts rfl).2
  | rule name => exact addRule_move rfl
  | action name args => exact addAction_move rfl
  | value name type => exact addValue_move rfl
  | edit name call =>
    unfold Call.work
    cases hd : b.draft? name with
    | none =>
      rw [edit_of_none hd]
      refine .kept (fun name' edit heq => ?_) rfl
      cases heq
      exact hd
    | some d =>
      rw [edit_of_some hd]
      exact .edited hd
  | build =>
    rcases hrun : Call.build.work.run.run b with ⟨r, b'⟩
    obtain ⟨r', hfinish⟩ := run_ignoring hrun
    exact .kept (fun _ _ heq => by cases heq) (finish_drafts hfinish).2

theorem name_of_draft? (h : b.draft? name = some d) : d.name = name := by
  simpa using List.find?_some h

theorem draft?_replaceDraft (b : Builder) (d : Draft) (name : String) :
    (b.replaceDraft d).draft? name =
      (b.draft? name).map fun x => if x.name = d.name then d else x := by
  unfold replaceDraft draft?
  rw [List.find?_map]
  congr 2
  funext x
  simp only [Function.comp_apply]
  split_ifs with h
  · rw [h]
  · rfl

theorem draft?_of_added (hdrafts : b'.drafts = b.drafts ++ [d]) (name : String) :
    b'.draft? name = (b.draft? name).or (if d.name = name then some d else none) := by
  unfold draft?
  rw [hdrafts, List.find?_append]
  congr 1
  by_cases h : d.name = name <;> simp [h]

end Builder

/-! Failures in a session -/

/-- The failures of a draft so far: none if it is built, and the first of them is on record if it is
open. -/
structure Draft.Tracks (d : Draft) (failures : List Error) : Prop where
  built : d.built → failures = []
  error : d.built = false → d.error = failures.head?

theorem Draft.Tracks.fresh {d : Draft} (herror : d.error = none) : d.Tracks [] :=
  ⟨fun _ => rfl, fun _ => herror⟩

theorem Draft.Move.tracks {d d' : Draft} {call : DraftCall} {r : Except Error Unit}
    {failures : List Error} (h : d.Move call r d') (hd : d.Tracks failures) :
    d'.Tracks (failures ++ (d.failure? call).toList) := by
  cases h with
  | kept hnone => simpa [hnone] using hd
  | @failed _ e hopen hfails =>
    refine ⟨fun hbuilt => ?_, fun _ => ?_⟩
    · rw [Draft.recordError, hopen] at hbuilt
      cases hbuilt
    · have herror := hd.error hopen
      cases failures <;> simp [Draft.recordError, herror, hfails]
  | changed hopen hnone hbuilt herror =>
    refine ⟨fun htrue => ?_, fun _ => ?_⟩
    · rw [hbuilt] at htrue
      cases htrue
    · rw [hnone, herror, hd.error hopen, Option.toList_none, List.append_nil]
  | closed hopen hnone herror _ =>
    have hfailures : failures = [] := by
      rw [← List.head?_eq_none_iff, ← hd.error hopen, herror]
    refine ⟨fun _ => ?_, fun hfalse => by cases hfalse⟩
    rw [hfailures, hnone]
    rfl
  | asked hbuilt _ _ =>
    rw [Draft.failure?_of_built hbuilt, Option.toList_none, List.append_nil]
    refine ⟨fun _ => hd.built hbuilt, fun hfalse => ?_⟩
    rw [Draft.recordError, hbuilt] at hfalse
    cases hfalse

/-- The failure of a call on the draft of the given name. -/
def Call.failure? (b : Builder) (name : String) : Call → Option Error
  | .edit target call => if target = name then (b.draft? name).bind fun d => d.failure? call else none
  | _ => none

structure Builder.Tracks (b : Builder) (failures : String → List Error) : Prop where
  drafts : ∀ name d, b.draft? name = some d → d.Tracks (failures name)
  unused : ∀ name, b.draft? name = none → failures name = []

theorem Call.failure?_of_not_edit {c : Call} (h : ∀ name edit, c ≠ .edit name edit) (b : Builder)
    (name : String) : c.failure? b name = none := by
  cases c with
  | edit target call => exact absurd rfl (h target call)
  | _ => rfl

theorem Draft.work_name (d : Draft) (call : DraftCall) : (call.work.run.run d).2.name = d.name :=
  (Draft.work_step rfl).name_eq

theorem Builder.Move.tracks {b b' : Builder} {c : Call} {failures : String → List Error}
    (h : b.Move c b') (hb : b.Tracks failures) :
    b'.Tracks fun name => failures name ++ (c.failure? b name).toList := by
  cases h with
  | kept hcall hdrafts =>
    have hnone (name : String) : c.failure? b name = none := by
      cases c with
      | edit target call =>
        simp only [Call.failure?]
        split_ifs with htarget
        · rw [← htarget, hcall target call rfl, Option.bind_none]
        · rfl
      | _ => rfl
    have hsame (name : String) : b'.draft? name = b.draft? name := by
      rw [Builder.draft?, Builder.draft?, hdrafts]
    simp only [hnone, Option.toList_none, List.append_nil]
    exact ⟨fun name d hd => hb.drafts name d (hsame name ▸ hd),
      fun name hd => hb.unused name (hsame name ▸ hd)⟩
  | added hcall _ herror _ hdrafts =>
    simp only [Call.failure?_of_not_edit hcall, Option.toList_none, List.append_nil]
    refine ⟨fun name x hx => ?_, fun name hx => ?_⟩
    · rw [Builder.draft?_of_added hdrafts] at hx
      rcases Option.or_eq_some_iff.mp hx with hold | ⟨hnone, hnew⟩
      · exact hb.drafts name x hold
      · split_ifs at hnew
        cases hnew
        rw [hb.unused name hnone]
        exact .fresh herror
    · rw [Builder.draft?_of_added hdrafts, Option.or_eq_none_iff] at hx
      exact hb.unused name hx.1
  | @edited target call d hd =>
    have hname := (d.work_name call).trans (Builder.name_of_draft? hd)
    refine ⟨fun name x hx => ?_, fun name hx => ?_⟩
    · obtain ⟨y, hy, rfl⟩ := Option.map_eq_some_iff.mp (Builder.draft?_replaceDraft .. ▸ hx)
      have hyname := Builder.name_of_draft? hy
      simp only [Call.failure?]
      by_cases htarget : target = name
      · subst htarget
        rw [hd] at hy
        cases hy
        rw [if_pos (hyname.trans hname.symm), if_pos rfl, hd]
        exact (d.work_move call).tracks (hb.drafts target d hd)
      · rw [if_neg fun heq => htarget (hname.symm.trans (heq.symm.trans hyname)), if_neg htarget]
        simpa using hb.drafts name y hy
    · rw [Builder.draft?_replaceDraft, Option.map_eq_none_iff] at hx
      have hfailure : (Call.edit target call).failure? b name = none := by
        simp only [Call.failure?, hx, Option.bind_none, ite_self]
      rw [hfailure, hb.unused name hx]
      rfl

namespace BuildSession

/-- What a call answers. -/
def outcome (s : BuildSession) (c : Call) : Except Error Unit := (c.work.run.run s.builder).1

/-- The failures of the draft of the given name. -/
def failures (name : String) : BuildSession → List Call → List Error
  | _, [] => []
  | s, c :: calls => (c.failure? s.builder name).toList ++ failures name (s.call c) calls

theorem tracks_run {s : BuildSession} {past : String → List Error} (h : s.builder.Tracks past)
    (calls : List Call) :
    (s.run calls).builder.Tracks fun name => past name ++ s.failures name calls := by
  induction calls generalizing s past with
  | nil => simpa [failures, run] using h
  | cons c calls ih =>
    have hcall : (s.call c).builder.Tracks fun name => past name ++ (c.failure? s.builder name).toList :=
      (s.builder.work_move c).tracks h
    have hrun := ih hcall
    simp only [List.append_assoc] at hrun
    exact hrun

theorem tracks_start (id : ℕ) (title : String) (calls : List Call) :
    ((start id title).run calls).builder.Tracks fun name => (start id title).failures name calls := by
  have hstart : (start id title).builder.Tracks fun _ => [] :=
    ⟨fun _ _ hd => (by cases hd), fun _ _ => rfl⟩
  simpa using tracks_run hstart calls

end BuildSession

/-! Finishing -/

/-- An open draft with an error on record gives that error when it is to be finished. -/
theorem Draft.build_of_error {d : Draft} {e : Error} (hopen : d.built = false)
    (herror : d.error = some e) : (DraftCall.build.work.run.run d).1 = .error e := by
  unfold DraftCall.work
  cases hc : d.toConstruct? with
  | none =>
    rw [run_bind_of_error (Draft.finish_of_missing hopen hc), herror]
    rfl
  | some c =>
    have hfinish := (Draft.finish_of_construct hc).trans (Draft.freeze_of_error hopen herror)
    rw [run_bind_of_error hfinish]

theorem BuildSession.build_of_failures {id : ℕ} {title name : String} {calls : List Call} {e : Error}
    {later : List Error} (h : (start id title).failures name calls = e :: later) :
    ((start id title).run calls).outcome (.edit name .build) = .error e := by
  obtain ⟨hdrafts, hunused⟩ := tracks_start id title calls
  cases hd : ((start id title).run calls).builder.draft? name with
  | none =>
    have hnone := hunused name hd
    rw [h] at hnone
    cases hnone
  | some d =>
    have htracks := hdrafts name d hd
    simp only [h] at htracks
    have hopen : d.built = false := by
      cases hbuilt : d.built with
      | false => rfl
      | true => cases htracks.built hbuilt
    unfold outcome Call.work
    rw [Builder.edit_of_some hd]
    exact Draft.build_of_error hopen (htracks.error hopen)

theorem Draft.Move.error_only {d d' : Draft} {call : DraftCall} {e : Error}
    (h : d.Move call (.error e) d') : d' = { d with error := d'.error } := by
  cases h <;> rfl

/-- A call that fails, or asks for an argument, leaves all of the draft but its error. -/
theorem Draft.work_error_only {d : Draft} {call : DraftCall}
    (h : (∃ e, (call.work.run.run d).1 = .error e) ∨ ∃ x, call = .argument x) :
    (call.work.run.run d).2 = { d with error := (call.work.run.run d).2.error } := by
  rcases h with ⟨e, herror⟩ | ⟨x, rfl⟩
  · have hmove := d.work_move call
    rw [herror] at hmove
    exact hmove.error_only
  · unfold DraftCall.work
    by_cases hx : x ∈ d.args.map Argument.name
    · obtain ⟨l, hrun⟩ := argument_of_mem hx
      rw [run_bind_of_ok hrun]
      rfl
    · rw [run_bind_of_ok (argument_of_not_mem hx)]
      rfl

theorem Builder.edit_error_only {b : Builder} (hdistinct : (b.drafts.map Draft.name).Nodup)
    {name : String} {call : DraftCall}
    (h : (∃ e, ((Call.edit name call).work.run.run b).1 = .error e) ∨ ∃ x, call = .argument x) :
    ∃ error : Draft → Option Error, ((Call.edit name call).work.run.run b).2 =
      { b with drafts := b.drafts.map fun d => { d with error := error d } } := by
  unfold Call.work at h ⊢
  cases hd : b.draft? name with
  | none =>
    refine ⟨Draft.error, ?_⟩
    rw [edit_of_none hd]
    simp
  | some d =>
    rw [edit_of_some hd] at h ⊢
    refine ⟨fun x => if x.name = d.name then (call.work.run.run d).2.error else x.error, ?_⟩
    unfold replaceDraft
    rw [Builder.mk.injEq]
    refine ⟨rfl, rfl, rfl, List.map_congr_left fun x hx => ?_, rfl⟩
    dsimp only
    rw [d.work_name call]
    split_ifs with hname
    · rw [List.inj_on_of_nodup_map hdistinct hx (List.mem_of_find?_eq_some hd) hname]
      exact Draft.work_error_only h
    · rfl

/-! Finishing a design -/

/-- Nothing is missing for the draft in a finished design. -/
def Draft.IsDone (d : Draft) : Prop := d.error = none ∧ d.built

theorem Draft.IsDone.not_iff {d : Draft} : ¬ d.IsDone ↔ d.error.isSome ∨ d.built = false := by
  unfold Draft.IsDone
  cases d.error <;> cases d.built <;> simp

/-- What is reported of a draft that is not done. -/
def Builder.complaint (b : Builder) (d : Draft) : Error := d.error.getD (b.problem d.name .unfinished)

namespace Builder

variable {b : Builder} {d : Draft} {ds : List Draft}

theorem collect_of_not_done (h : ¬ d.IsDone) : b.collect (d :: ds) = .error (b.complaint d) := by
  rw [collect, complaint]
  cases herror : d.error with
  | some e => rfl
  | none =>
    have hbuilt : d.built = false := by simpa [Draft.IsDone, herror] using h
    simp [Draft.built?, hbuilt]

theorem collect_of_done (h : d.IsDone) {c : Construct} (hc : d.toConstruct? = some c) :
    b.collect (d :: ds) = (do let cs ← b.collect ds; pure (c :: cs)) := by
  obtain ⟨herror, hbuilt⟩ := h
  rw [collect, Draft.built?, herror, if_pos hbuilt, hc]

theorem collect_first {earlier later : List Draft} (hearlier : ∀ x ∈ earlier, x.IsDone)
    (hconstruct : ∀ x ∈ earlier, x.built → x.toConstruct?.isSome) (hd : ¬ d.IsDone) :
    b.collect (earlier ++ d :: later) = .error (b.complaint d) := by
  induction earlier with
  | nil => exact collect_of_not_done hd
  | cons x earlier ih =>
    obtain ⟨hx, hearlier⟩ := List.forall_mem_cons.mp hearlier
    obtain ⟨hxc, hconstruct⟩ := List.forall_mem_cons.mp hconstruct
    obtain ⟨c, hc⟩ := Option.isSome_iff_exists.mp (hxc hx.2)
    rw [List.cons_append, collect_of_done hx hc, ih hearlier hconstruct]
    rfl

theorem collect_error_iff (hconstruct : ∀ x ∈ ds, x.built → x.toConstruct?.isSome) :
    (∃ e, b.collect ds = .error e) ↔ ∃ x ∈ ds, ¬ x.IsDone := by
  induction ds with
  | nil => simp [collect]
  | cons x ds ih =>
    obtain ⟨hxc, hconstruct⟩ := List.forall_mem_cons.mp hconstruct
    by_cases hx : x.IsDone
    · obtain ⟨c, hc⟩ := Option.isSome_iff_exists.mp (hxc hx.2)
      rw [collect_of_done hx hc, List.exists_mem_cons_iff, ← ih hconstruct,
        or_iff_right (not_not.mpr hx)]
      cases b.collect ds <;> simp [bind, Except.bind, pure, Except.pure]
    · rw [collect_of_not_done hx]
      exact iff_of_true ⟨_, rfl⟩ ⟨x, List.mem_cons_self .., hx⟩

theorem finish_of_error (hopen : b.frozen = false) {e : Error} (h : b.collect b.drafts = .error e) :
    finish.run.run b = (.error e, b) := by
  rw [finish, run_getThe_bind, hopen, h]
  rfl

theorem finish_error_iff (hopen : b.frozen = false) :
    (∃ e, (finish.run.run b).1 = .error e) ↔ ∃ e, b.collect b.drafts = .error e := by
  constructor
  · rintro ⟨e, he⟩
    cases hcollect : b.collect b.drafts with
    | error e' => exact ⟨e', rfl⟩
    | ok cs =>
      rw [finish, run_getThe_bind, hopen, hcollect] at he
      cases he
  · rintro ⟨e, he⟩
    exact ⟨e, congrArg Prod.fst (finish_of_error hopen he)⟩

end Builder

/-- A draft that is built has become a construct. -/
theorem Draft.Move.construct {d d' : Draft} {call : DraftCall} {r : Except Error Unit}
    (h : d.Move call r d') (hd : d.built → d.toConstruct?.isSome) :
    d'.built → d'.toConstruct?.isSome := by
  cases h with
  | kept => exact hd
  | failed => exact hd
  | changed _ _ hbuilt _ =>
    intro htrue
    rw [hbuilt] at htrue
    cases htrue
  | closed _ _ _ hconstruct => exact fun _ => hconstruct
  | asked => exact hd

theorem Builder.Move.construct {b b' : Builder} {c : Call} (h : b.Move c b')
    (hb : ∀ d ∈ b.drafts, d.built → d.toConstruct?.isSome) :
    ∀ d ∈ b'.drafts, d.built → d.toConstruct?.isSome := by
  cases h with
  | kept _ hdrafts => rwa [hdrafts]
  | added _ hopen _ _ hdrafts =>
    rw [hdrafts]
    refine List.forall_mem_append.mpr ⟨hb, List.forall_mem_singleton.mpr fun hbuilt => ?_⟩
    rw [hopen] at hbuilt
    cases hbuilt
  | @edited name call d hd =>
    intro x hx
    obtain ⟨y, hy, rfl⟩ := List.mem_map.mp hx
    split_ifs
    · exact (d.work_move call).construct (hb d (List.mem_of_find?_eq_some hd))
    · exact hb y hy

theorem BuildSession.constructs (id : ℕ) (title : String) (calls : List Call) :
    ∀ d ∈ ((start id title).run calls).builder.drafts, d.built → d.toConstruct?.isSome := by
  induction calls using List.reverseRecOn with
  | nil => exact List.forall_mem_nil _
  | append_singleton calls c ih =>
    rw [run, List.foldl_append]
    exact (Builder.work_move _ c).construct ih

/-- Refused calls in any session. A call on a draft that fails, or asks for an argument, changes no
more than what is on record as its error. Once a call on an open draft has failed, finishing that
draft gives the first failure, whatever else was called. And finishing a design that is not frozen
fails if and only if one of its drafts has an error on record or is not built; then nothing changes,
and the first such draft is reported. -/
theorem refusals_sticky (id : ℕ) (title : String) (calls : List Call) (s : BuildSession)
    (hs : s = (BuildSession.start id title).run calls) :
    (∀ name call, (∃ e, s.outcome (.edit name call) = .error e) ∨ (∃ x, call = .argument x) →
      ∃ error : Draft → Option Error, (s.call (.edit name call)).builder =
        { s.builder with drafts := s.builder.drafts.map fun d => { d with error := error d } }) ∧
    (∀ name e later, (BuildSession.start id title).failures name calls = e :: later →
      s.outcome (.edit name .build) = .error e) ∧
    (s.builder.frozen = false →
      ((∃ e, s.design = .error e) ↔ ∃ d ∈ s.builder.drafts, d.error.isSome ∨ d.built = false) ∧
      ∀ earlier d later, s.builder.drafts = earlier ++ d :: later →
        (∀ x ∈ earlier, x.error = none ∧ x.built) → d.error.isSome ∨ d.built = false →
        s.design = .error (d.error.getD (s.builder.problem d.name .unfinished)) ∧
        (s.call .build).builder = s.builder) := by
  have hconstruct := BuildSession.constructs id title calls
  rw [← hs] at hconstruct
  refine ⟨fun name call hfails => ?_, fun name e later hfailures => ?_, fun hopen => ⟨?_, ?_⟩⟩
  · have hsound := BuildSession.start_sound id title calls
    rw [← hs] at hsound
    exact Builder.edit_error_only hsound.distinct hfails
  · rw [hs]
    exact BuildSession.build_of_failures hfailures
  · unfold BuildSession.design
    rw [Builder.finish_error_iff hopen, Builder.collect_error_iff hconstruct]
    simp only [Draft.IsDone.not_iff]
  · intro earlier d later hdrafts hearlier hd
    have hcollect : s.builder.collect s.builder.drafts = .error (s.builder.complaint d) := by
      rw [hdrafts] at hconstruct ⊢
      refine Builder.collect_first hearlier (fun x hx => ?_) (Draft.IsDone.not_iff.mpr hd)
      exact hconstruct x (List.mem_append_left _ hx)
    have hfinish := Builder.finish_of_error hopen hcollect
    refine ⟨congrArg Prod.fst hfinish, ?_⟩
    have hbuild : Call.build.work.run.run s.builder = (.error (s.builder.complaint d), s.builder) :=
      run_bind_of_error hfinish
    exact congrArg Prod.snd hbuild

/-! A rule whose guard is refused, and then an update of it. What is accepted in between and the
method that is finished before it do not help. -/

namespace Guardless

def x : State := ⟨0, .register none, "x", .uint 4⟩

def calls : List Call := [
  .declare [some x],
  .action "put" [⟨"v", .uint 4⟩],
  .rule "step",
  .edit "step" (.guard .absent),
  .edit "step" (.update (some x) (.unsigned 1 4)),
  .edit "put" .build,
  .edit "step" (.update (some x) (.unsigned 2 4))]

end Guardless

theorem refusals_sticky_guardless :
    (BuildSession.start 0 "M").failures "step" Guardless.calls =
      [.construction "step" "guard" .missingField, .construction "step" "x" .doubleUpdate] ∧
    ((BuildSession.start 0 "M").run Guardless.calls).outcome (.edit "step" .build) =
      .error (.construction "step" "guard" .missingField) ∧
    ((BuildSession.start 0 "M").run Guardless.calls).design =
      .error (.construction "step" "guard" .missingField) := by
  have hfailures : (BuildSession.start 0 "M").failures "step" Guardless.calls =
      [.construction "step" "guard" .missingField, .construction "step" "x" .doubleUpdate] := by
    decide +kernel
  obtain ⟨-, hbuild, hdesign⟩ := refusals_sticky 0 "M" Guardless.calls _ rfl
  refine ⟨hfailures, hbuild "step" _ _ hfailures, ?_⟩
  exact ((hdesign rfl).2 [_] _ [] rfl (List.forall_mem_singleton.mpr ⟨rfl, rfl⟩) (.inl rfl)).1

end GuardedRtl
