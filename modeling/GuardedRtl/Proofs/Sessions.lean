import GuardedRtl.Design.Builder
import GuardedRtl.Design.Elaborate
import GuardedRtl.Proofs.Drafting

/-! Designs as builders make them. A session is any sequence of calls, refused ones included; it
keeps the conjuncts that were accepted for each guard. Main statement: `BuildSession.coherent`, by
which every rule and method of a finished design has the conjunction of its conjuncts for guard and
uses, besides state, only arguments of its own. -/

namespace GuardedRtl

open Rtl

inductive Call where
  | declare (states : List (Option State))
  | rule (name : String)
  | action (name : String) (args : List Field)
  | value (name : String) (type : Ty)
  | edit (name : String) (call : DraftCall)
  | build

def Call.work : Call → Building Unit
  | .declare states => Builder.declare states
  | .rule name => Builder.addRule name
  | .action name args => Builder.addAction name args
  | .value name type => Builder.addValue name type
  | .edit name call => Builder.edit name call.work
  | .build => do let _ ← Builder.finish

/-- The conjunct that a call with the given outcome has added to the guard of the given draft. -/
def Call.conjuncts (draft : String) : Call → Except Error Unit → List Expr
  | .edit name call, r => if name = draft then call.conjuncts r else []
  | _, _ => []

/-- What a call declares, if it is accepted. -/
inductive Declaration where
  | rule (name : String)
  | action (name : String) (args : List Field)
  | value (name : String) (type : Ty)
  deriving DecidableEq

def Call.declaration? : Call → Option Declaration
  | .rule name => some (.rule name)
  | .action name args => some (.action name args)
  | .value name type => some (.value name type)
  | _ => none

/-- What an argument was declared as. -/
def Argument.field (a : Argument) : Rtl.Field := ⟨a.name, a.type⟩

/-- What a draft was declared as. -/
def Draft.declaration (d : Draft) : Declaration :=
  match d.role with
  | .rule => .rule d.name
  | .action args => .action d.name (args.map Argument.field)
  | .value type _ => .value d.name type

/-- A draft on which no call was made. -/
def Draft.IsNew (d : Draft) : Prop :=
  d.guard = none ∧ d.body = [] ∧ d.updates = [] ∧ ∀ type e, d.role ≠ .value type (some e)

theorem Draft.IsNew.coherent {d : Draft} (h : d.IsNew) : d.Coherent [] := by
  obtain ⟨hguard, hbody, hupdates, hrole⟩ := h
  refine ⟨hguard, List.forall_mem_nil _, ?_, ?_, fun type e hresult => absurd hresult (hrole type e)⟩
  · rw [hupdates]
    exact List.forall_mem_nil _
  · rw [hbody]
    exact fun _ _ hmem => by cases hmem

/-- A new draft that a builder can take: its name, its arguments and its identifiers are its own. -/
structure Draft.FitsIn (d : Draft) (b : Builder) : Prop where
  new : d.IsNew
  named : d.name ≠ ""
  distinct : d.name ∉ b.drafts.map Draft.name
  args : ∀ a ∈ d.args, a.design = b.id ∧ a.method = d.name
  free : Builder.firstClash b.identifiers d.identifiers = none

/-- All that a call can do to a builder, but for the state that it declares. -/
inductive Builder.Step (b : Builder) : Call → Except Error Unit → Builder → Prop
  | kept {call : Call} {r : Except Error Unit} {b' : Builder} (hid : b'.id = b.id)
      (hdrafts : b'.drafts = b.drafts) (hconjuncts : ∀ name, call.conjuncts name r = [])
      (hdeclaration : r = .ok () → call.declaration? = none)
      (hresults : ∀ name e, call = .edit name (.result e) → r ≠ .ok ()) : Step b call r b'
  | added {call : Call} {b' : Builder} (d : Draft) (hfits : d.FitsIn b) (hid : b'.id = b.id)
      (hdrafts : b'.drafts = b.drafts ++ [d]) (hconjuncts : ∀ name, call.conjuncts name (.ok ()) = [])
      (hdeclaration : call.declaration? = some d.declaration) : Step b call (.ok ()) b'
  | edited {name : String} {call : DraftCall} {r : Except Error Unit} {d d' : Draft}
      (hd : d ∈ b.drafts) (hname : d.name = name) (hstep : d.Step call r d') :
      Step b (.edit name call) r (b.replaceDraft d')

namespace Builder

theorem ofExcept_run {α : Type} (x : Except Error α) (b : Builder) :
    (MonadExcept.ofExcept x : Building α).run.run b = (x, b) := by
  cases x <;> rfl

/-- What was computed before is there, or the call has failed with the builder as it was. -/
theorem ofExcept_bind_cases {α β : Type} {x : Except Error α} {f : α → Building β} {b b' : Builder}
    {r : Except Error β} (h : (MonadExcept.ofExcept x >>= f : Building β).run.run b = (r, b')) :
    (∃ e, r = .error e) ∧ b' = b ∨ ∃ a, x = .ok a ∧ (f a).run.run b = (r, b') := by
  rcases run_bind_cases h with ⟨e, he, rfl⟩ | ⟨a, mid, ha, hrest⟩
  · rw [ofExcept_run] at he
    cases he
    exact .inl ⟨⟨e, rfl⟩, rfl⟩
  · rw [ofExcept_run] at ha
    cases ha
    exact .inr ⟨a, rfl, hrest⟩

theorem checkName_ok {b : Builder} {name : String} (h : b.checkName name = .ok ()) :
    name ≠ "" ∧ name ∉ b.drafts.map Draft.name := by
  unfold checkName at h
  split_ifs at h with _ hempty hname
  exact ⟨hempty, hname⟩

/-- The arguments of a method are those that it declares, and they are its own. -/
theorem makeArgs_ok {b : Builder} {method : String} {before args : List Argument} {fs : List Field}
    (h : b.makeArgs method before fs = .ok args) :
    args.map Argument.field = before.map Argument.field ++ fs ∧
      ((∀ a ∈ before, a.design = b.id ∧ a.method = method) →
        ∀ a ∈ args, a.design = b.id ∧ a.method = method) := by
  induction fs generalizing before with
  | nil =>
    cases h
    exact ⟨by simp, fun hown => hown⟩
  | cons f fs ih =>
    obtain ⟨name, type⟩ := f
    rw [makeArgs] at h
    split_ifs at h
    obtain ⟨hfields, hown⟩ := ih h
    refine ⟨by simpa [Argument.field] using hfields, fun hbefore => hown ?_⟩
    exact List.forall_mem_append.mpr ⟨hbefore, List.forall_mem_singleton.mpr ⟨rfl, rfl⟩⟩

theorem accept_cases {d : Draft} {b b' : Builder} {r : Except Error Unit}
    (h : (accept d).run.run b = (r, b')) :
    (∃ e, r = .error e) ∧ b' = b ∨ firstClash b.identifiers d.identifiers = none ∧ r = .ok () ∧
      b' = { b with drafts := b.drafts ++ [d] } := by
  rw [accept, run_getThe_bind] at h
  split at h
  · cases h
    exact .inl ⟨⟨_, rfl⟩, rfl⟩
  · rename_i hclash
    cases h
    exact .inr ⟨hclash, rfl, rfl⟩

/-- A call that is refused and is no edit changes nothing. -/
theorem Step.refused {call : Call} {b b' : Builder} {r : Except Error Unit}
    (h : (∃ e, r = .error e) ∧ b' = b) (hconjuncts : ∀ name r, call.conjuncts name r = []) :
    b.Step call r b' := by
  obtain ⟨⟨e, rfl⟩, rfl⟩ := h
  exact .kept rfl rfl (fun name => hconjuncts name _) (fun hr => by cases hr)
    fun _ _ _ hr => by cases hr

theorem Step.of_accept {d : Draft} {call : Call} {b b' : Builder} {r : Except Error Unit}
    (h : (accept d).run.run b = (r, b')) (hnew : d.IsNew)
    (hname : d.name ≠ "" ∧ d.name ∉ b.drafts.map Draft.name)
    (hargs : ∀ a ∈ d.args, a.design = b.id ∧ a.method = d.name)
    (hdeclaration : call.declaration? = some d.declaration)
    (hconjuncts : ∀ name r, call.conjuncts name r = []) : b.Step call r b' := by
  rcases accept_cases h with hfail | ⟨hclash, rfl, rfl⟩
  · exact .refused hfail hconjuncts
  · exact .added d ⟨hnew, hname.1, hname.2, hargs, hclash⟩ rfl rfl (fun name => hconjuncts name _)
      hdeclaration

theorem addRule_step {b b' : Builder} {name : String} {r : Except Error Unit}
    (h : (addRule name).run.run b = (r, b')) : b.Step (.rule name) r b' := by
  rw [addRule, run_getThe_bind] at h
  rcases ofExcept_bind_cases h with hfail | ⟨⟨⟩, hname, h⟩
  · exact .refused hfail fun _ _ => rfl
  exact .of_accept h ⟨rfl, rfl, rfl, nofun⟩ (checkName_ok hname) (List.forall_mem_nil _) rfl
    fun _ _ => rfl

theorem addAction_step {b b' : Builder} {name : String} {args : List Field} {r : Except Error Unit}
    (h : (addAction name args).run.run b = (r, b')) : b.Step (.action name args) r b' := by
  rw [addAction, run_getThe_bind] at h
  rcases ofExcept_bind_cases h with hfail | ⟨⟨⟩, hname, h⟩
  · exact .refused hfail fun _ _ => rfl
  rcases ofExcept_bind_cases h with hfail | ⟨args', hargs, h⟩
  · exact .refused hfail fun _ _ => rfl
  obtain ⟨hfields, hown⟩ := makeArgs_ok hargs
  refine .of_accept h ⟨rfl, rfl, rfl, nofun⟩ (checkName_ok hname) (hown (List.forall_mem_nil _)) ?_
    fun _ _ => rfl
  exact congrArg (fun fs => some (Declaration.action name fs)) hfields.symm

theorem addValue_step {b b' : Builder} {name : String} {type : Ty} {r : Except Error Unit}
    (h : (addValue name type).run.run b = (r, b')) : b.Step (.value name type) r b' := by
  rw [addValue, run_getThe_bind] at h
  split_ifs at h
  · cases h
    exact .refused ⟨⟨_, rfl⟩, rfl⟩ fun _ _ => rfl
  rcases ofExcept_bind_cases h with hfail | ⟨⟨⟩, hname, h⟩
  · exact .refused hfail fun _ _ => rfl
  exact .of_accept h ⟨rfl, rfl, rfl, nofun⟩ (checkName_ok hname) (List.forall_mem_nil _) rfl
    fun _ _ => rfl

theorem declare_drafts {b b' : Builder} {states : List (Option State)} {r : Except Error Unit}
    (h : (declare states).run.run b = (r, b')) : b'.id = b.id ∧ b'.drafts = b.drafts := by
  rw [declare, run_getThe_bind] at h
  split_ifs at h
  · cases h
    exact ⟨rfl, rfl⟩
  · dsimp only at h
    split at h <;> cases h <;> exact ⟨rfl, rfl⟩

theorem finish_drafts {b b' : Builder} {r : Except Error Design} (h : finish.run.run b = (r, b')) :
    b'.id = b.id ∧ b'.drafts = b.drafts := by
  rw [finish, run_getThe_bind] at h
  split_ifs at h
  · cases h
    exact ⟨rfl, rfl⟩
  · rcases ofExcept_bind_cases h with ⟨-, rfl⟩ | ⟨cs, -, h⟩
    · exact ⟨rfl, rfl⟩
    · cases h
      exact ⟨rfl, rfl⟩

theorem edit_step {b b' : Builder} {name : String} {call : DraftCall} {r : Except Error Unit}
    (h : (edit name call.work).run.run b = (r, b')) : b.Step (.edit name call) r b' := by
  rw [edit, run_getThe_bind] at h
  split at h
  · cases h
    refine .kept rfl rfl (fun draft => ?_) (fun hr => by cases hr) fun _ _ _ hr => by cases hr
    simp only [Call.conjuncts, DraftCall.conjuncts_error, ite_self]
  · rename_i d hd
    rcases hrun : call.work.run.run d with ⟨r', d'⟩
    rw [hrun] at h
    change (MonadExcept.ofExcept r' : Building Unit).run.run (b.replaceDraft d') = (r, b') at h
    rw [ofExcept_run] at h
    cases h
    have hname : d.name = name := by simpa using List.find?_some hd
    exact .edited (List.mem_of_find?_eq_some hd) hname (Draft.work_step hrun)

theorem replaceDraft_names (b : Builder) (d : Draft) :
    (b.replaceDraft d).drafts.map Draft.name = b.drafts.map Draft.name := by
  rw [replaceDraft, List.map_map]
  refine List.map_congr_left fun x _ => ?_
  simp only [Function.comp_apply]
  split_ifs with h
  · exact h.symm
  · rfl

theorem work_step {b b' : Builder} {call : Call} {r : Except Error Unit}
    (h : call.work.run.run b = (r, b')) : b.Step call r b' := by
  cases call with
  | declare states =>
    obtain ⟨hid, hdrafts⟩ := declare_drafts h
    exact .kept hid hdrafts (fun _ => rfl) (fun _ => rfl) fun _ _ hcall => by cases hcall
  | rule name => exact addRule_step h
  | action name args => exact addAction_step h
  | value name type => exact addValue_step h
  | edit name call => exact edit_step h
  | build =>
    obtain ⟨r', h⟩ := run_ignoring h
    obtain ⟨hid, hdrafts⟩ := finish_drafts h
    exact .kept hid hdrafts (fun _ => rfl) (fun _ => rfl) fun _ _ hcall => by cases hcall

end Builder

/-! Sessions -/

/-- A builder, and the conjuncts that were accepted for the guard of each draft. -/
structure BuildSession where
  builder : Builder
  conjuncts : String → List Expr

namespace BuildSession

def start (id : ℕ) (name : String) : BuildSession := ⟨{ id, name }, fun _ => []⟩

def call (s : BuildSession) (c : Call) : BuildSession :=
  let (r, b) := c.work.run.run s.builder
  ⟨b, fun draft => s.conjuncts draft ++ c.conjuncts draft r⟩

def run (s : BuildSession) (calls : List Call) : BuildSession := calls.foldl call s

/-- What finishing the design gives. -/
def design (s : BuildSession) : Except Error Design := (Builder.finish.run.run s.builder).1

structure Coherent (s : BuildSession) : Prop where
  drafts : ∀ d ∈ s.builder.drafts, d.Coherent (s.conjuncts d.name)
  unused : ∀ name, name ∉ s.builder.drafts.map Draft.name → s.conjuncts name = []

theorem Coherent.start (id : ℕ) (name : String) : (BuildSession.start id name).Coherent :=
  ⟨List.forall_mem_nil _, fun _ _ => rfl⟩

theorem Coherent.step {b b' : Builder} {given : String → List Expr} {c : Call} {r : Except Error Unit}
    (h : Coherent ⟨b, given⟩) (hstep : b.Step c r b') :
    Coherent ⟨b', fun draft => given draft ++ c.conjuncts draft r⟩ := by
  obtain ⟨hdrafts, hunused⟩ := h
  cases hstep with
  | kept _ hkept hnone _ _ =>
    simp only [hnone, List.append_nil]
    exact ⟨by simpa only [hkept] using hdrafts, by simpa only [hkept] using hunused⟩
  | added d hfits _ hadded hnone _ =>
    simp only [hnone, List.append_nil]
    refine ⟨?_, fun name hmem => ?_⟩
    · have hd : d.Coherent (given d.name) := by
        rw [show given d.name = [] from hunused d.name hfits.distinct]
        exact hfits.new.coherent
      simpa only [hadded] using List.forall_mem_append.mpr ⟨hdrafts, List.forall_mem_singleton.mpr hd⟩
    · simp only [hadded, List.map_append] at hmem
      exact hunused name fun hold => hmem (List.mem_append_left _ hold)
  | @edited name call _ d d' hd hname hedit =>
    have hname' : d'.name = name := hedit.name_eq.trans hname
    refine ⟨fun x hx => ?_, fun draft hdraft => ?_⟩
    · obtain ⟨y, hy, rfl⟩ := List.mem_map.mp hx
      split_ifs with heq
      · have hd' := hedit.coherent (hdrafts d hd)
        simpa [Call.conjuncts, hname, hname'] using hd'
      · have hne : name ≠ y.name := by
          rw [← hname']
          exact Ne.symm heq
        simpa [Call.conjuncts, hne] using hdrafts y hy
    · simp only [Builder.replaceDraft_names] at hdraft
      have hne : name ≠ draft := by
        rintro rfl
        exact hdraft (hname ▸ List.mem_map_of_mem hd)
      simpa [Call.conjuncts, hne] using hunused draft hdraft

/-- One call keeps a session coherent, whether it is accepted or refused. -/
theorem Coherent.call {s : BuildSession} (h : s.Coherent) (c : Call) : (s.call c).Coherent :=
  h.step (Builder.work_step rfl)

theorem Coherent.run {s : BuildSession} (h : s.Coherent) (calls : List Call) :
    (s.run calls).Coherent := by
  induction calls generalizing s with
  | nil => exact h
  | cons c calls ih => exact ih (h.call c)

end BuildSession

/-! Finished designs -/

def Construct.args : Construct → List Argument
  | .method (.action _ args) => args
  | _ => []

/-- The guard is the conjunction of what was given, and all expressions are the construct's own. -/
structure Construct.Coherent (c : Construct) (given : List Expr) : Prop where
  guard : c.core.guard = (conjoin given).getD .one
  given : ∀ e ∈ given, e.Within c.args
  expressions : ∀ e ∈ c.expressions, e.Within c.args

theorem within_one (args : List Argument) : Expr.one.Within args :=
  ⟨rfl, by simp [Expr.one, Expr.unsigned, Expr.parts], by
    simp [Expr.one, Expr.unsigned, Expr.parts, Ty.IsNative]⟩

namespace Draft

theorem Coherent.guard_within {d : Draft} {given : List Expr} (h : d.Coherent given) :
    (d.guard.getD .one).Within d.args := by
  rw [h.guard]
  cases hg : conjoin given with
  | none => exact within_one _
  | some g => exact conjoin_within h.given hg

/-- The expressions of a draft, but for the result of a value method. -/
theorem Coherent.core_within {d : Draft} {given : List Expr} (h : d.Coherent given) :
    ∀ e ∈ d.toRule.guard ::
      (d.toRule.body.flatMap fun | .display _ args => args | .finish _ => []) ++
      (d.toRule.updates.flatMap fun u => [.leaf (.state u.target), u.value]),
      e.Within d.args := by
  rw [List.forall_mem_append, List.forall_mem_cons]
  refine ⟨⟨h.guard_within, fun e he => ?_⟩, fun e he => ?_⟩
  · obtain ⟨f, hf, he⟩ := List.mem_flatMap.mp he
    cases f with
    | display format args => exact h.displays format args hf e he
    | finish exitCode => cases he
  · obtain ⟨u, hu, he⟩ := List.mem_flatMap.mp he
    rcases List.mem_cons.mp he with rfl | he
    · exact ⟨rfl, by simp [Expr.parts, Leaf.Available], by simp [Expr.parts]⟩
    · rw [List.mem_singleton.mp he]
      exact h.updates u hu

theorem Coherent.toConstruct {d : Draft} {given : List Expr} (h : d.Coherent given) {c : Construct}
    (hc : d.toConstruct? = some c) : c.name = d.name ∧ c.Coherent given := by
  have hguard : d.toRule.guard = (conjoin given).getD .one := by rw [toRule, h.guard]
  have hgiven := h.given
  have hcore := h.core_within
  unfold toConstruct? at hc
  split at hc
  · rename_i hrole
    cases hc
    rw [args, hrole] at hgiven hcore
    exact ⟨rfl, hguard, hgiven,
      List.forall_mem_append.mpr ⟨hcore, List.forall_mem_nil _⟩⟩
  · rename_i args hrole
    cases hc
    rw [Draft.args, hrole] at hgiven hcore
    exact ⟨rfl, hguard, hgiven,
      List.forall_mem_append.mpr ⟨hcore, List.forall_mem_nil _⟩⟩
  · rename_i type result hrole
    obtain ⟨e, rfl, rfl⟩ := Option.map_eq_some_iff.mp hc
    have hresult := h.result type e hrole
    rw [args, hrole] at hgiven hcore hresult
    exact ⟨rfl, hguard, hgiven,
      List.forall_mem_append.mpr ⟨hcore, List.forall_mem_singleton.mpr hresult⟩⟩

end Draft

/-- Drafts become constructs one by one, in order. -/
theorem Builder.collect_ok {b : Builder} {ds : List Draft} {cs : List Construct}
    (h : b.collect ds = .ok cs) : ds.map Draft.toConstruct? = cs.map some := by
  induction ds generalizing cs with
  | nil =>
    cases h
    rfl
  | cons d ds ih =>
    rw [collect] at h
    split at h
    · cases h
    · cases h
    · rename_i c _ hbuilt
      obtain ⟨cs', hcs, h⟩ := bind_eq_ok.mp h
      cases h
      have hc : d.toConstruct? = some c := by
        unfold Draft.built? at hbuilt
        split_ifs at hbuilt
        exact hbuilt
      rw [List.map_cons, List.map_cons, hc, ih hcs]

theorem Builder.finish_ok {b : Builder} {d : Design} (h : (finish.run.run b).1 = .ok d) :
    ∃ cs, b.collect b.drafts = .ok cs ∧ d = ⟨b.name, b.state, rulesOf cs, methodsOf cs⟩ := by
  rcases hrun : finish.run.run b with ⟨r, b'⟩
  rw [hrun] at h
  simp only at h
  rw [h, finish, run_getThe_bind] at hrun
  split_ifs at hrun
  · cases hrun
  · rcases ofExcept_bind_cases hrun with ⟨⟨e, he⟩, -⟩ | ⟨cs, hcs, hrest⟩
    · cases he
    · cases hrest
      exact ⟨cs, hcs, rfl⟩

theorem mem_constructs {name : String} {state : List State} {cs : List Construct} {c : Construct}
    (h : c ∈ Design.constructs ⟨name, state, Builder.rulesOf cs, Builder.methodsOf cs⟩) : c ∈ cs := by
  rcases List.mem_append.mp h with h | h
  · obtain ⟨r, hr, rfl⟩ := List.mem_map.mp h
    obtain ⟨c', hc', heq⟩ := List.mem_filterMap.mp hr
    cases c' with
    | rule r' => cases heq; exact hc'
    | method m => cases heq
  · obtain ⟨m, hm, rfl⟩ := List.mem_map.mp h
    obtain ⟨c', hc', heq⟩ := List.mem_filterMap.mp hm
    cases c' with
    | rule r => cases heq
    | method m' => cases heq; exact hc'

/-- Every rule and method of a finished design has the conjunction of the conjuncts accepted for it
as its guard, and uses only state and arguments of its own. -/
theorem BuildSession.coherent {id : ℕ} {name : String} {calls : List Call} {d : Design}
    (h : ((start id name).run calls).design = .ok d) :
    ∀ c ∈ d.constructs, c.Coherent (((start id name).run calls).conjuncts c.name) := by
  intro c hc
  have hcoherent := (Coherent.start id name).run calls
  obtain ⟨cs, hcs, rfl⟩ := Builder.finish_ok h
  have hmem : some c ∈ (run (start id name) calls).builder.drafts.map Draft.toConstruct? := by
    rw [Builder.collect_ok hcs]
    exact List.mem_map_of_mem (mem_constructs hc)
  obtain ⟨draft, hdraft, hconstruct⟩ := List.mem_map.mp hmem
  obtain ⟨hname, hc⟩ := (hcoherent.drafts draft hdraft).toConstruct hconstruct
  rwa [hname]

end GuardedRtl
