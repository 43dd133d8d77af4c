import GuardedRtl.Proofs.Refusals

/-! Finished drafts. Once a rule or method is finished, later calls on its draft are as if they were
not made, whatever else is called in between, and the design has the rule or method as it was. There
is one exception: asking for an argument that the draft does not have still puts an error on record,
and then the design can not be finished. Main statement: `built_frozen`. -/

namespace GuardedRtl

open Rtl

/-! Calls on a draft that is built -/

/-- Whether the call is one on the draft of the given name. -/
def Call.targets (name : String) : Call → Bool
  | .edit target _ => target = name
  | _ => false

/-- What a call puts on record for a draft that is built. -/
def Draft.stray? (d : Draft) : DraftCall → Option Error
  | .argument x =>
    if x ∈ d.args.map Argument.name then none else some (d.problem x .unknownField)
  | _ => none

def Call.stray? (d : Draft) : Call → Option Error
  | .edit name call => if name = d.name then d.stray? call else none
  | _ => none

def Draft.strays (d : Draft) (calls : List Call) : List Error := calls.filterMap (Call.stray? d)

/-- The draft with the error on record, unless there was one before. -/
def Draft.marked (d : Draft) (error? : Option Error) : Draft := { d with error := d.error.or error? }

theorem Call.stray?_of_not_targets {d : Draft} {c : Call} (h : c.targets d.name = false) :
    c.stray? d = none := by
  cases c with
  | edit name call => exact if_neg (of_decide_eq_false h)
  | _ => rfl

namespace Draft

variable {d : Draft}

theorem marked_none (d : Draft) : d.marked none = d := by rw [marked, Option.or_none]

theorem marked_marked (d : Draft) (e e' : Option Error) :
    (d.marked e).marked e' = d.marked (e.or e') := by
  simp only [marked, Option.or_assoc]

theorem strays_concat (d : Draft) (calls : List Call) (c : Call) :
    d.strays (calls ++ [c]) = d.strays calls ++ (c.stray? d).toList := by
  unfold strays
  rw [List.filterMap_append]
  cases h : c.stray? d <;> simp [h]

theorem argument_marks (d : Draft) (x : String) :
    ((DraftCall.argument x).work.run.run d).2 = d.marked (d.stray? (.argument x)) := by
  unfold DraftCall.work stray?
  dsimp only
  by_cases hx : x ∈ d.args.map Argument.name
  · obtain ⟨l, hrun⟩ := argument_of_mem hx
    rw [run_bind_of_ok hrun, if_pos hx, marked_none]
    rfl
  · rw [run_bind_of_ok (argument_of_not_mem hx), if_neg hx]
    refine congrArg (fun error => { d with error }) ?_
    cases d.error <;> rfl

theorem Move.unchanged {call : DraftCall} {r : Except Error Unit} {d' : Draft} (h : d.Move call r d')
    (hbuilt : d.built) (hcall : ∀ x, call ≠ .argument x) : d' = d := by
  have hopen {p : Prop} (hfalse : d.built = false) : p := by
    rw [hbuilt] at hfalse
    cases hfalse
  cases h with
  | kept => rfl
  | failed hfalse => exact hopen hfalse
  | changed hfalse => exact hopen hfalse
  | closed hfalse => exact hopen hfalse
  | asked _ heq => exact absurd heq (hcall _)

/-- All that a call can change in a draft that is built is its error. -/
theorem work_of_built (hbuilt : d.built) (call : DraftCall) :
    (call.work.run.run d).2 = d.marked (d.stray? call) := by
  cases call with
  | argument x => exact d.argument_marks x
  | _ =>
    refine ((d.work_move _).unchanged hbuilt fun x heq => ?_).trans d.marked_none.symm
    cases heq

theorem not_done_of_error {e : Error} (herror : d.error = some e) : ¬ d.IsDone := by
  rintro ⟨hnone, -⟩
  rw [hnone] at herror
  cases herror

end Draft

namespace Builder

variable {b b' : Builder} {d : Draft}

/-- One call, on this draft or not. -/
theorem Move.draft?_of_built {c : Call} (h : b.Move c b') (hd : b.draft? d.name = some d)
    (hbuilt : d.built) :
    b'.draft? d.name = some (d.marked (c.stray? d)) := by
  cases h with
  | kept hcall hdrafts =>
    have htargets : c.targets d.name = false := by
      cases c with
      | edit name call =>
        refine decide_eq_false fun hname => ?_
        rw [← hname, hcall name call rfl] at hd
        cases hd
      | _ => rfl
    rw [Call.stray?_of_not_targets htargets, Draft.marked_none, draft?, hdrafts]
    exact hd
  | added hcall _ _ _ hdrafts =>
    have htargets : c.targets d.name = false := by
      cases c with
      | edit name call => exact absurd rfl (hcall name call)
      | _ => rfl
    rw [Call.stray?_of_not_targets htargets, Draft.marked_none, draft?_of_added hdrafts, hd]
    rfl
  | @edited name call x hx =>
    have hname : (call.work.run.run x).2.name = name := (x.work_name call).trans (name_of_draft? hx)
    rw [draft?_replaceDraft, hd, Option.map_some, hname]
    by_cases htarget : d.name = name
    · rw [← htarget, hd] at hx
      cases hx
      rw [if_pos htarget, Draft.work_of_built hbuilt, Call.stray?, if_pos htarget.symm]
    · have htargets : (Call.edit name call).targets d.name = false :=
        decide_eq_false fun heq => htarget heq.symm
      rw [if_neg htarget, Call.stray?_of_not_targets htargets, Draft.marked_none]

theorem replaceDraft_of_mem (hdistinct : (b.drafts.map Draft.name).Nodup) (hd : d ∈ b.drafts) :
    b.replaceDraft d = b := by
  have hdrafts : (b.drafts.map fun x => if x.name = d.name then d else x) = b.drafts := by
    refine (List.map_congr_left fun x hx => ?_).trans (List.map_id b.drafts)
    split_ifs with hname
    · exact (List.inj_on_of_nodup_map hdistinct hx hd hname).symm
    · rfl
  rw [replaceDraft, hdrafts]

/-- A call on a draft that is built changes nothing, if it puts nothing on record. -/
theorem work_of_built (hdistinct : (b.drafts.map Draft.name).Nodup) (hd : b.draft? d.name = some d)
    (hbuilt : d.built) {c : Call} (htargets : c.targets d.name) (hstray : c.stray? d = none) :
    (c.work.run.run b).2 = b := by
  cases c with
  | edit name call =>
    obtain rfl : name = d.name := of_decide_eq_true htargets
    have hkept : d.stray? call = none := by simpa [Call.stray?] using hstray
    unfold Call.work
    rw [edit_of_some hd, Draft.work_of_built hbuilt, hkept, Draft.marked_none]
    exact replaceDraft_of_mem hdistinct (List.mem_of_find?_eq_some hd)
  | _ => cases htargets

end Builder

/-! Sessions after a draft is built -/

namespace BuildSession

variable {s : BuildSession} {id : ℕ} {title : String} {before after : List Call} {d : Draft}

theorem run_append (s : BuildSession) (before after : List Call) :
    s.run (before ++ after) = (s.run before).run after :=
  List.foldl_append

/-- Whatever is called, the draft is as it was but for the first error that was put on record. -/
theorem draft?_run (hd : s.builder.draft? d.name = some d) (hbuilt : d.built) (after : List Call) :
    (s.run after).builder.draft? d.name = some (d.marked (d.strays after).head?) := by
  induction after generalizing s d with
  | nil => exact hd.trans (congrArg some d.marked_none.symm)
  | cons c after ih =>
    have hcall : (s.call c).builder.draft? d.name = some (d.marked (c.stray? d)) :=
      (s.builder.work_move c).draft?_of_built hd hbuilt
    have hstrays : (d.strays (c :: after)).head? = (c.stray? d).or (d.strays after).head? := by
      unfold Draft.strays
      rw [List.filterMap_cons]
      cases c.stray? d <;> rfl
    rw [hstrays, ← Draft.marked_marked]
    exact ih (d := d.marked (c.stray? d)) hcall hbuilt

/-- Calls on the draft that put nothing on record may be left out. -/
theorem run_filter (hd : ((start id title).run before).builder.draft? d.name = some d)
    (hbuilt : d.built) (hstrays : d.strays after = []) :
    (((start id title).run before).run after).builder =
      (((start id title).run before).run (after.filter fun c => !c.targets d.name)).builder := by
  induction after using List.reverseRecOn with
  | nil => rfl
  | append_singleton after c ih =>
    rw [Draft.strays_concat, List.append_eq_nil_iff, Option.toList_eq_nil_iff] at hstrays
    obtain ⟨hstrays, hstray⟩ := hstrays
    have hsame := ih hstrays
    rw [List.filter_append, run_append, run_append]
    cases htargets : c.targets d.name with
    | false =>
      rw [List.filter_singleton, htargets]
      change (c.work.run.run _).2 = (c.work.run.run _).2
      rw [hsame]
    | true =>
      -- the builder is reached from the start, so the names of its drafts are distinct
      have hsound := start_sound id title (before ++ after)
      rw [run_append] at hsound
      have hd' := draft?_run hd hbuilt after
      rw [hstrays, List.head?_nil, Draft.marked_none] at hd'
      rw [List.filter_singleton, htargets]
      exact (Builder.work_of_built hsound.distinct hd' hbuilt htargets hstray).trans hsame

theorem design_of_error {calls : List Call} {e : Error}
    (hd : ((start id title).run calls).builder.draft? d.name = some d) (herror : d.error = some e)
    (design : Design) : ((start id title).run calls).design ≠ .ok design := by
  intro h
  obtain ⟨cs, hcs, -⟩ := Builder.finish_ok h
  obtain ⟨e', he'⟩ := (Builder.collect_error_iff (constructs id title calls)).mpr
    ⟨d, List.mem_of_find?_eq_some hd, Draft.not_done_of_error herror⟩
  rw [hcs] at he'
  cases he'

/-- The error of the one draft that is not done is what is reported. -/
theorem design_of_only_error {calls : List Call} {e : Error}
    (hopen : ((start id title).run calls).builder.frozen = false)
    (hd : ((start id title).run calls).builder.draft? d.name = some d) (herror : d.error = some e)
    (hothers : ∀ x ∈ ((start id title).run calls).builder.drafts, x.name ≠ d.name → x.IsDone) :
    ((start id title).run calls).design = .error e := by
  have hconstruct := constructs id title calls
  obtain ⟨-, earlier, later, hdrafts, hearlier⟩ := List.find?_eq_some_iff_append.mp hd
  have hmem {x : Draft} (hx : x ∈ earlier) : x ∈ ((start id title).run calls).builder.drafts := by
    rw [hdrafts]
    exact List.mem_append_left _ hx
  have hdone : ∀ x ∈ earlier, x.IsDone := fun x hx =>
    hothers x (hmem hx) (by simpa using hearlier x hx)
  refine congrArg Prod.fst (Builder.finish_of_error hopen ?_)
  rw [hdrafts, Builder.collect_first hdone (fun x hx => hconstruct x (hmem hx))
    (Draft.not_done_of_error herror), Builder.complaint, herror, Option.getD_some]

theorem mem_design {calls : List Call} {design : Design} {c : Construct}
    (h : ((start id title).run calls).design = .ok design)
    (hd : d ∈ ((start id title).run calls).builder.drafts) (hc : d.toConstruct? = some c) :
    c ∈ design.constructs := by
  obtain ⟨cs, hcs, -, -, hperm⟩ := exists_constructs h
  have hmem : some c ∈ cs.map some := by
    rw [← hcs, ← hc]
    exact List.mem_map_of_mem hd
  obtain ⟨c', hc', heq⟩ := List.mem_map.mp hmem
  cases heq
  exact hperm.mem_iff.mpr hc'

end BuildSession

/-! Finishing a draft -/

/-- The work of a call that finishes a draft, with the rule or method that it gives. -/
def DraftCall.finishing? : DraftCall → Option (Drafting Construct)
  | .build => some Draft.finish
  | .buildRule => some Draft.finishRule
  | _ => none

namespace Draft

variable {d : Draft} {c : Construct}

theorem freeze_ok (h : (freeze.run.run d).1 = .ok c) (hconstruct : d.toConstruct?.isSome) :
    d.error = none ∧ d.toConstruct? = some c ∧ freeze.run.run d = (.ok c, { d with built := true }) := by
  obtain ⟨c', hc'⟩ := Option.isSome_iff_exists.mp hconstruct
  cases hbuilt : d.built with
  | true =>
    obtain ⟨e, hrun⟩ := freeze_of_built hbuilt
    rw [hrun] at h
    cases h
  | false =>
    rcases Option.eq_none_or_eq_some d.error with herror | ⟨e, herror⟩
    · have hrun := freeze_of_construct hbuilt herror hc'
      rw [hrun] at h
      cases h
      exact ⟨herror, hc', hrun⟩
    · rw [freeze_of_error hbuilt herror] at h
      cases h

theorem finish_ok (h : (finish.run.run d).1 = .ok c) :
    finish.run.run d = freeze.run.run d ∧ d.toConstruct?.isSome := by
  cases hc : d.toConstruct? with
  | some c' => exact ⟨finish_of_construct hc, rfl⟩
  | none =>
    cases hbuilt : d.built with
    | true =>
      obtain ⟨e, hrun⟩ := freeze_of_built hbuilt
      rw [finish_of_built hbuilt, hrun] at h
      cases h
    | false =>
      rw [finish_of_missing hbuilt hc] at h
      cases h

theorem finishRule_ok (h : (finishRule.run.run d).1 = .ok c) :
    finishRule.run.run d = freeze.run.run d ∧ d.toConstruct?.isSome := by
  by_cases hrole : d.role = .rule
  · exact ⟨finishRule_of_rule hrole, by rw [toConstruct?, hrole]; rfl⟩
  · obtain ⟨e, hrun⟩ := finishRule_of_not_rule hrole
    rw [hrun] at h
    cases h

/-- A draft that was finished has no error, and it is the rule or method that was given. -/
theorem finishing_ok {call : DraftCall} {finishing : Drafting Construct}
    (hcall : call.finishing? = some finishing) (h : (finishing.run.run d).1 = .ok c) :
    d.error = none ∧ d.toConstruct? = some c ∧ (call.work.run.run d).2 = { d with built := true } := by
  have hwork : call.work = (do let _ ← finishing : Drafting Unit) ∧
      finishing.run.run d = freeze.run.run d ∧ d.toConstruct?.isSome := by
    cases call with
    | build =>
      cases hcall
      exact ⟨rfl, finish_ok h⟩
    | buildRule =>
      cases hcall
      exact ⟨rfl, finishRule_ok h⟩
    | _ => cases hcall
  obtain ⟨hwork, hfreeze, hconstruct⟩ := hwork
  rw [hfreeze] at h
  obtain ⟨herror, hc, hrun⟩ := freeze_ok h hconstruct
  refine ⟨herror, hc, ?_⟩
  rw [hwork, run_bind_of_ok (hfreeze.trans hrun)]
  rfl

end Draft

theorem BuildSession.call_finishing {s : BuildSession} {name : String} {call : DraftCall}
    {finishing : Drafting Construct} {c : Construct} (hcall : call.finishing? = some finishing)
    (h : ((Builder.edit name finishing).run.run s.builder).1 = .ok c) :
    ∃ d : Draft, d.name = name ∧ d.error = none ∧ d.built ∧ d.toConstruct? = some c ∧
      (s.call (.edit name call)).builder.draft? name = some d := by
  cases hd : s.builder.draft? name with
  | none =>
    rw [Builder.edit_of_none hd] at h
    cases h
  | some d =>
    rw [Builder.edit_of_some hd] at h
    obtain ⟨herror, hc, hwork⟩ := Draft.finishing_ok hcall h
    have hname := Builder.name_of_draft? hd
    refine ⟨{ d with built := true }, hname, herror, rfl, hc, ?_⟩
    change ((Builder.edit name call.work).run.run s.builder).2.draft? name = _
    rw [Builder.edit_of_some hd, hwork, Builder.draft?_replaceDraft, hd]
    exact congrArg some (if_pos rfl)

/-- A draft that is finished in any session, and any calls after that, on this draft or not. The draft
stays as it is but for its error, and every finished design has the rule or method that was given. The
calls on the draft do not matter for what finishing the design gives, unless one of them asks for an
argument that the draft does not have. After such a call the design is never finished, and if nothing
else is in the way it fails with the error of the first such call. -/
theorem built_frozen (id : ℕ) (title : String) (before : List Call) (name : String) (call : DraftCall)
    (finishing : Drafting Construct) (c : Construct) (s : BuildSession)
    (hs : s = (BuildSession.start id title).run before) (hcall : call.finishing? = some finishing)
    (hbuild : ((Builder.edit name finishing).run.run s.builder).1 = .ok c) :
    ∃ d : Draft, d.built? = some c ∧ (s.call (.edit name call)).builder.draft? name = some d ∧
      ∀ after t, t = (s.call (.edit name call)).run after →
        t.builder.draft? name = some { d with error := (d.strays after).head? } ∧
        (∀ design, t.design = .ok design → c ∈ design.constructs) ∧
        (d.strays after = [] → t.design =
          ((s.call (.edit name call)).run (after.filter fun x => !x.targets name)).design) ∧
        (∀ e later, d.strays after = e :: later → (∀ design, t.design ≠ .ok design) ∧
          (t.builder.frozen = false → (∀ x ∈ t.builder.drafts, x.name ≠ name → x.IsDone) →
            t.design = .error e)) := by
  obtain ⟨d, rfl, herror, hbuilt, hc, hd⟩ := BuildSession.call_finishing hcall hbuild
  have hreached : s.call (.edit d.name call) =
      (BuildSession.start id title).run (before ++ [.edit d.name call]) := by
    rw [BuildSession.run_append, ← hs]
    rfl
  refine ⟨d, by rw [Draft.built?, if_pos hbuilt, hc], hd, fun after t ht => ?_⟩
  have hdraft : t.builder.draft? d.name = some { d with error := (d.strays after).head? } := by
    rw [ht, BuildSession.draft?_run hd hbuilt after, Draft.marked, herror, Option.none_or]
  have hsame (hstrays : d.strays after = []) : t.builder =
      ((s.call (.edit d.name call)).run (after.filter fun x => !x.targets d.name)).builder := by
    rw [hreached] at hd ht ⊢
    rw [ht, BuildSession.run_filter hd hbuilt hstrays]
  rw [hreached, ← BuildSession.run_append] at ht
  subst ht
  refine ⟨hdraft, fun design hdesign => ?_, fun hstrays => ?_, fun e later hstrays => ?_⟩
  · exact BuildSession.mem_design hdesign (List.mem_of_find?_eq_some hdraft) hc
  · rw [BuildSession.design, BuildSession.design, hsame hstrays]
  · rw [hstrays] at hdraft
    exact ⟨BuildSession.design_of_error (d := { d with error := some e }) hdraft rfl,
      fun hopen hothers => BuildSession.design_of_only_error (d := { d with error := some e }) hopen
        hdraft rfl hothers⟩

/-! A method that is finished while a rule is not. What is then called on it is refused, or asks for
the argument that it has. -/

namespace Late

def x : State := ⟨0, .register none, "x", .uint 4⟩

def v : Argument := ⟨0, "put", "v", .uint 4⟩

def put : Construct := .method (.action ⟨"put", .one, [], [⟨x, .leaf (.argument v)⟩]⟩ [v])

def before : List Call := [
  .declare [some x],
  .action "put" [⟨"v", .uint 4⟩],
  .rule "step",
  .edit "put" (.update (some x) (.leaf (.argument v)))]

def after : List Call := [
  .edit "put" (.guard .one),
  .edit "step" (.update (some x) (.unsigned 1 4)),
  .edit "put" (.argument "v"),
  .build,
  .edit "put" .build,
  .edit "step" .build]

def others : List Call := [.edit "step" (.update (some x) (.unsigned 1 4)), .build, .edit "step" .build]

end Late

theorem built_frozen_put :
    ((Builder.edit "put" Draft.finish).run.run ((BuildSession.start 0 "M").run Late.before).builder).1 =
      .ok Late.put ∧
    ((((BuildSession.start 0 "M").run Late.before).call (.edit "put" .build)).run Late.after).design =
      ((((BuildSession.start 0 "M").run Late.before).call (.edit "put" .build)).run Late.others).design ∧
    ∃ design,
      ((((BuildSession.start 0 "M").run Late.before).call (.edit "put" .build)).run Late.after).design =
        .ok design ∧ Late.put ∈ design.constructs := by
  have hbuild : ((Builder.edit "put" Draft.finish).run.run
      ((BuildSession.start 0 "M").run Late.before).builder).1 = .ok Late.put := rfl
  obtain ⟨d, -, hd, hrun⟩ := built_frozen 0 "M" Late.before "put" .build _ _ _ rfl rfl hbuild
  obtain rfl := Option.some.inj hd
  obtain ⟨-, hdesign, hsame, -⟩ := hrun Late.after _ rfl
  exact ⟨hbuild, hsame rfl, _, rfl, hdesign _ rfl⟩

/-- Asking a finished method for an argument that it does not have makes the design fail. -/
theorem argument_thaws :
    ((BuildSession.start 0 "M").run [.action "a" [], .edit "a" .build]).design =
      .ok ⟨"M", [], [], [.action ⟨"a", .one, [], []⟩ []]⟩ ∧
    ((BuildSession.start 0 "M").run
      [.action "a" [], .edit "a" .build, .edit "a" (.argument "x")]).design =
      .error (.construction "a" "x" .unknownField) :=
  ⟨rfl, rfl⟩

end GuardedRtl
