import GuardedRtl.Proofs.Frozen

/-! Declarations. A rule or method is accepted exactly if its declaration is admissible after those
accepted before: then its draft is added, and nothing else is changed. A declaration that is refused,
of a rule, a method or state, changes nothing, and it is as if it had not been tried. Main statement:
`declaration_exact`.

The state of a finished design is what the accepted declarations of state have given, one after the
other. No two of them have an element in common. Only whether one of them repeats an element is not
looked at. Main statement: `state_as_declared`. -/

namespace GuardedRtl

open Rtl

/-! Rules and methods -/

namespace Declaration

def name : Declaration → String
  | .rule name => name
  | .action name _ => name
  | .value name _ => name

def args : Declaration → List Field
  | .action _ args => args
  | _ => []

/-- The type of what a value method returns. -/
def resultType? : Declaration → Option Ty
  | .value _ type => some type
  | _ => none

/-- The signals and ports of the rule or method, without its own name before them. -/
def suffixes : Declaration → List String
  | .rule _ => ["can_fire", "firing"]
  | .action _ args => "can_fire" :: "firing" :: "enable" :: "ready" :: args.map Field.name
  | .value _ _ => ["can_fire", "firing", "ready", "value"]

def identifiers (x : Declaration) : List String := x.suffixes.map fun s => x.name ++ "_" ++ s

/-- Whether a rule or method can be declared after those in `earlier`. -/
structure Admissible (x : Declaration) (earlier : List Declaration) : Prop where
  named : x.name ≠ ""
  unused : x.name ∉ earlier.map name
  args : ∀ f ∈ x.args, f.name ≠ "" ∧ f.type.isPresent
  apart : (x.args.map Field.name).Nodup
  result : ∀ type ∈ x.resultType?, type.isPresent
  distinct : x.identifiers.Nodup
  free : ∀ y ∈ earlier, x.identifiers.Disjoint y.identifiers

/-- The argument that a field declares. -/
def argument (design : ℕ) (method : String) (f : Field) : Argument := ⟨design, method, f.name, f.type⟩

/-- The draft with which a rule or method begins. -/
def draft (design : ℕ) : Declaration → Draft
  | .rule name => { name, role := .rule }
  | .action name args => { name, role := .action (args.map (argument design name)) }
  | .value name type => { name, role := .value type none }

theorem name_draft (design : ℕ) (x : Declaration) : (x.draft design).name = x.name := by
  cases x <;> rfl

theorem identifiers_draft (design : ℕ) (x : Declaration) :
    (x.draft design).identifiers = x.identifiers := by
  cases x <;> simp [draft, Draft.identifiers, Draft.suffixes, identifiers, suffixes, name, argument,
    Function.comp_def]

end Declaration

theorem Draft.name_declaration (d : Draft) : d.declaration.name = d.name := by
  unfold declaration
  split <;> rfl

theorem Draft.identifiers_declaration (d : Draft) : d.declaration.identifiers = d.identifiers := by
  unfold declaration identifiers suffixes
  cases d.role <;> simp [Declaration.identifiers, Declaration.suffixes, Declaration.name,
    Argument.field, Function.comp_def]

namespace Builder

variable {b b' : Builder} {r : Except Error Unit}

theorem firstClash_of_free {taken ids : List String} (hdistinct : ids.Nodup)
    (hfree : ∀ x ∈ ids, x ∉ taken) : firstClash taken ids = none := by
  induction ids generalizing taken with
  | nil => rfl
  | cons x ids ih =>
    obtain ⟨hx, hids⟩ := List.nodup_cons.mp hdistinct
    obtain ⟨hxfree, hfree⟩ := List.forall_mem_cons.mp hfree
    rw [firstClash, if_neg hxfree]
    refine ih hids fun y hy => ?_
    rw [List.mem_cons, not_or]
    exact ⟨fun heq => hx (heq ▸ hy), hfree y hy⟩

theorem checkName_of_unused {name : String} (hopen : b.frozen = false) (hnamed : name ≠ "")
    (hunused : name ∉ b.drafts.map Draft.name) : b.checkName name = .ok () := by
  rw [checkName, hopen, if_neg Bool.false_ne_true, if_neg hnamed, if_neg hunused]

/-- Arguments can be made if each has a name and a type, and a name that none before it has. -/
theorem makeArgs_of_complete {method : String} {before : List Argument} {fs : List Field}
    (hcomplete : ∀ f ∈ fs, f.name ≠ "" ∧ f.type.isPresent) (hapart : (fs.map Field.name).Nodup)
    (hbefore : ∀ f ∈ fs, f.name ∉ before.map Argument.name) :
    b.makeArgs method before fs = .ok (before ++ fs.map (Declaration.argument b.id method)) := by
  induction fs generalizing before with
  | nil => rw [makeArgs, List.map_nil, List.append_nil]
  | cons f fs ih =>
    obtain ⟨⟨hname, htype⟩, hcomplete⟩ := List.forall_mem_cons.mp hcomplete
    obtain ⟨hnew, hapart⟩ := List.nodup_cons.mp hapart
    obtain ⟨hf, hbefore⟩ := List.forall_mem_cons.mp hbefore
    rw [makeArgs, if_neg hname, htype, if_neg (by decide), if_neg hf]
    refine (ih hcomplete hapart fun g hg => ?_).trans (by simp [Declaration.argument])
    rw [List.map_append, List.mem_append, not_or]
    refine ⟨hbefore g hg, fun hmem => hnew ?_⟩
    have hgf : g.name = f.name := List.mem_singleton.mp hmem
    exact hgf ▸ List.mem_map_of_mem hg

theorem complete_of_makeArgs {method : String} {before args : List Argument} {fs : List Field}
    (h : b.makeArgs method before fs = .ok args) :
    (∀ f ∈ fs, f.name ≠ "" ∧ f.type.isPresent) ∧ (fs.map Field.name).Nodup ∧
      (∀ f ∈ fs, f.name ∉ before.map Argument.name) ∧
      args = before ++ fs.map (Declaration.argument b.id method) := by
  induction fs generalizing before with
  | nil =>
    cases h
    simp
  | cons f fs ih =>
    rw [makeArgs] at h
    split_ifs at h with hname htype hf
    obtain ⟨hcomplete, hapart, hbefore, rfl⟩ := ih h
    simp only [List.map_append, List.mem_append, not_or] at hbefore
    refine ⟨List.forall_mem_cons.mpr ⟨⟨hname, by simpa using htype⟩, hcomplete⟩,
      List.nodup_cons.mpr ⟨fun hmem => ?_, hapart⟩,
      List.forall_mem_cons.mpr ⟨hf, fun g hg => (hbefore g hg).1⟩, by simp [Declaration.argument]⟩
    obtain ⟨g, hg, hgf⟩ := List.mem_map.mp hmem
    exact (hbefore g hg).2 (List.mem_singleton.mpr hgf)

theorem accept_of_free {d : Draft} (h : firstClash b.identifiers d.identifiers = none) :
    (accept d).run.run b = (.ok (), { b with drafts := b.drafts ++ [d] }) := by
  rw [accept, run_getThe_bind, h]
  rfl

/-- The rules and methods that were declared. -/
def declarations (b : Builder) : List Declaration := b.drafts.map Draft.declaration

theorem map_name_declarations (b : Builder) :
    b.declarations.map Declaration.name = b.drafts.map Draft.name := by
  simp [declarations, Draft.name_declaration]

theorem flatMap_identifiers_declarations (b : Builder) :
    b.declarations.flatMap Declaration.identifiers = b.identifiers := by
  simp [declarations, identifiers, List.flatMap_map, Draft.identifiers_declaration]

theorem free_iff {x : Declaration} :
    (∀ y ∈ b.declarations, x.identifiers.Disjoint y.identifiers) ↔
      ∀ id ∈ x.identifiers, id ∉ b.identifiers := by
  rw [← flatMap_identifiers_declarations]
  simp only [List.mem_flatMap, not_exists, not_and]
  exact ⟨fun h id hid y hy => h y hy hid, fun h y hy id hid => h id hid y hy⟩

theorem run_ofExcept_bind {α β : Type} {x : Except Error α} {a : α} {f : α → Building β}
    (h : x = .ok a) : (MonadExcept.ofExcept x >>= f : Building β).run.run b = (f a).run.run b :=
  run_bind_of_ok ((ofExcept_run x b).trans (by rw [h]))

/-- The builder with one rule or method more. -/
def adding (b : Builder) (x : Declaration) : Builder :=
  { b with drafts := b.drafts ++ [x.draft b.id] }

theorem names_adding (b : Builder) (x : Declaration) :
    (b.adding x).drafts.map Draft.name = b.drafts.map Draft.name ++ [x.name] := by
  simp [adding, Declaration.name_draft]

theorem identifiers_adding (b : Builder) (x : Declaration) :
    (b.adding x).identifiers = b.identifiers ++ x.identifiers := by
  simp [identifiers, adding, Declaration.identifiers_draft]

/-- An admissible declaration is accepted. -/
theorem work_of_admissible (hopen : b.frozen = false) {c : Call} {x : Declaration}
    (hx : c.declaration? = some x) (h : x.Admissible b.declarations) :
    c.work.run.run b = (.ok (), b.adding x) := by
  have hname : b.checkName x.name = .ok () :=
    checkName_of_unused hopen h.named (b.map_name_declarations ▸ h.unused)
  have hfree : firstClash b.identifiers (x.draft b.id).identifiers = none := by
    rw [Declaration.identifiers_draft]
    exact firstClash_of_free h.distinct (free_iff.mp h.free)
  have haccept := accept_of_free hfree
  cases c with
  | rule name =>
    cases hx
    exact (run_ofExcept_bind hname).trans haccept
  | action name args =>
    cases hx
    have hargs : b.makeArgs name [] args = .ok (args.map (Declaration.argument b.id name)) :=
      makeArgs_of_complete h.args h.apart fun _ _ => List.not_mem_nil
    exact (run_ofExcept_bind hname).trans ((run_ofExcept_bind hargs).trans haccept)
  | value name type =>
    cases hx
    have htype : type.isPresent := h.result type rfl
    change (addValue name type).run.run b = _
    rw [addValue, run_getThe_bind, htype]
    exact (run_ofExcept_bind hname).trans haccept
  | _ => cases hx

/-- All that a call can do that declares a rule or method. -/
inductive Declares (b : Builder) (x : Declaration) : Except Error Unit → Builder → Prop
  | refused (e : Error) : Declares b x (.error e) b
  | accepted (h : x.Admissible b.declarations) : Declares b x (.ok ()) (b.adding x)

theorem Declares.of_refused {x : Declaration} (h : (∃ e, r = .error e) ∧ b' = b) :
    b.Declares x r b' := by
  obtain ⟨⟨e, rfl⟩, rfl⟩ := h
  exact .refused e

theorem Declares.of_accept {x : Declaration} (hname : b.checkName x.name = .ok ())
    (hargs : ∀ f ∈ x.args, f.name ≠ "" ∧ f.type.isPresent) (hapart : (x.args.map Field.name).Nodup)
    (hresult : ∀ type ∈ x.resultType?, type.isPresent)
    (h : (accept (x.draft b.id)).run.run b = (r, b')) : b.Declares x r b' := by
  rcases accept_cases h with hrefused | ⟨hclash, rfl, rfl⟩
  · exact .of_refused hrefused
  · obtain ⟨hnamed, hunused⟩ := checkName_ok hname
    rw [Declaration.identifiers_draft] at hclash
    obtain ⟨hdistinct, hfree⟩ := firstClash_eq_none hclash
    exact .accepted ⟨hnamed, b.map_name_declarations ▸ hunused, hargs, hapart, hresult, hdistinct,
      free_iff.mpr hfree⟩

theorem work_declares {c : Call} {x : Declaration} (hx : c.declaration? = some x)
    (h : c.work.run.run b = (r, b')) : b.Declares x r b' := by
  cases c with
  | rule name =>
    cases hx
    change (addRule name).run.run b = _ at h
    rw [addRule, run_getThe_bind] at h
    rcases ofExcept_bind_cases h with hrefused | ⟨⟨⟩, hname, haccept⟩
    · exact .of_refused hrefused
    exact .of_accept hname (List.forall_mem_nil _) List.nodup_nil (by rintro _ ⟨⟩) haccept
  | action name args =>
    cases hx
    change (addAction name args).run.run b = _ at h
    rw [addAction, run_getThe_bind] at h
    rcases ofExcept_bind_cases h with hrefused | ⟨⟨⟩, hname, h⟩
    · exact .of_refused hrefused
    rcases ofExcept_bind_cases h with hrefused | ⟨made, hmade, haccept⟩
    · exact .of_refused hrefused
    obtain ⟨hargs, hapart, -, rfl⟩ := complete_of_makeArgs hmade
    exact .of_accept hname hargs hapart (by rintro _ ⟨⟩) haccept
  | value name type =>
    cases hx
    change (addValue name type).run.run b = _ at h
    rw [addValue, run_getThe_bind] at h
    split_ifs at h with htype
    · cases h
      exact .refused _
    rcases ofExcept_bind_cases h with hrefused | ⟨⟨⟩, hname, haccept⟩
    · exact .of_refused hrefused
    refine .of_accept hname (List.forall_mem_nil _) List.nodup_nil ?_ haccept
    rintro _ ⟨⟩
    simpa using htype
  | _ => cases hx

theorem work_of_accepted {c : Call} {x : Declaration} (hx : c.declaration? = some x)
    (h : (c.work.run.run b).1 = .ok ()) :
    x.Admissible b.declarations ∧ (c.work.run.run b).2 = b.adding x := by
  rcases hrun : c.work.run.run b with ⟨r, b'⟩
  rw [hrun] at h
  cases h
  cases work_declares hx hrun with
  | accepted hadmissible => exact ⟨hadmissible, rfl⟩

/-! State -/

theorem checkDeclared_of_fresh {seen : List State} {states : List (Option State)}
    (hnone : none ∉ states) (hfresh : ∀ s, some s ∈ states → s ∉ seen) :
    ∃ elements, b.checkDeclared seen states = .ok elements := by
  induction states with
  | nil => exact ⟨[], rfl⟩
  | cons state states ih =>
    rw [List.mem_cons, not_or] at hnone
    obtain ⟨elements, helements⟩ := ih hnone.2 fun s hs => hfresh s (List.mem_cons_of_mem _ hs)
    cases state with
    | none => exact absurd rfl hnone.1
    | some s =>
      rw [checkDeclared, if_neg (hfresh s (List.mem_cons_self ..)), helements]
      exact ⟨s :: elements, rfl⟩

theorem fresh_of_checkDeclared {seen elements : List State} {states : List (Option State)}
    (h : b.checkDeclared seen states = .ok elements) :
    states = elements.map some ∧ ∀ s ∈ elements, s ∉ seen := by
  induction states generalizing elements with
  | nil =>
    cases h
    exact ⟨rfl, List.forall_mem_nil _⟩
  | cons state states ih =>
    cases state with
    | none => cases h
    | some s =>
      rw [checkDeclared] at h
      split_ifs at h with hs
      obtain ⟨rest, hrest, h⟩ := bind_eq_ok.mp h
      cases h
      obtain ⟨rfl, hfresh⟩ := ih hrest
      exact ⟨rfl, List.forall_mem_cons.mpr ⟨hs, hfresh⟩⟩

/-- All that a call can do that declares state. -/
inductive Extends (b : Builder) (states : List (Option State)) : Except Error Unit → Builder → Prop
  | refused (e : Error) : Extends b states (.error e) b
  | accepted (elements : List State) (hstates : states = elements.map some)
      (hfresh : ∀ s ∈ elements, s ∉ b.state) :
      Extends b states (.ok ()) { b with state := b.state ++ elements }

theorem declare_extends {states : List (Option State)} (h : (declare states).run.run b = (r, b')) :
    b.Extends states r b' := by
  rw [declare, run_getThe_bind] at h
  split_ifs at h
  · cases h
    exact .refused _
  · dsimp only at h
    split at h
    · cases h
      exact .refused _
    · rename_i elements helements
      cases h
      obtain ⟨hstates, hfresh⟩ := fresh_of_checkDeclared helements
      exact .accepted elements hstates hfresh

theorem declare_of_fresh (hopen : b.frozen = false) {states : List (Option State)}
    (hnone : none ∉ states) (hfresh : ∀ s, some s ∈ states → s ∉ b.state) :
    ((declare states).run.run b).1 = .ok () := by
  obtain ⟨elements, helements⟩ := checkDeclared_of_fresh (b := b) hnone hfresh
  rw [declare, run_getThe_bind, hopen, helements]
  rfl

end Builder

/-! Sessions -/

/-- Whether the call declares something. -/
def Call.isDeclaring : Call → Bool
  | .declare _ => true
  | .rule _ => true
  | .action _ _ => true
  | .value _ _ => true
  | _ => false

/-- A declaration that is refused changes nothing. -/
theorem Builder.work_of_refused {b : Builder} {c : Call} (hc : c.isDeclaring) {e : Error}
    (h : (c.work.run.run b).1 = .error e) : (c.work.run.run b).2 = b := by
  have hcases : (∃ x, c.declaration? = some x) ∨ ∃ states, c = .declare states := by
    cases c with
    | declare states => exact .inr ⟨states, rfl⟩
    | rule name => exact .inl ⟨_, rfl⟩
    | action name args => exact .inl ⟨_, rfl⟩
    | value name type => exact .inl ⟨_, rfl⟩
    | edit name call => cases hc
    | build => cases hc
  rcases hrun : c.work.run.run b with ⟨r, b'⟩
  rw [hrun] at h
  cases h
  rcases hcases with ⟨x, hx⟩ | ⟨states, rfl⟩
  · cases Builder.work_declares hx hrun
    rfl
  · cases Builder.declare_extends hrun
    rfl

/-- What calls do depends on the builder only. -/
theorem BuildSession.run_congr {s t : BuildSession} (h : s.builder = t.builder) (calls : List Call) :
    (s.run calls).builder = (t.run calls).builder := by
  induction calls generalizing s t with
  | nil => exact h
  | cons c calls ih =>
    refine ih (s := s.call c) (t := t.call c) ?_
    change (c.work.run.run s.builder).2 = (c.work.run.run t.builder).2
    rw [h]

/-- A builder in any session that is not finished, and the declarations that were accepted in it. The
names and identifiers in use are theirs. A rule or method is accepted exactly if it is admissible
after them, and then it is added with its name and its identifiers, and nothing else is changed. A
declaration that is refused changes nothing: whatever is called after it, every call gives what it
would have given without it. -/
theorem declaration_exact (id : ℕ) (title : String) (calls : List Call) (s : BuildSession)
    (accepted : List Declaration) (hs : s = (BuildSession.start id title).run calls)
    (haccepted : accepted = ((BuildSession.start id title).history calls).declared)
    (hopen : s.builder.frozen = false) :
    (s.builder.drafts.map Draft.name = accepted.map Declaration.name ∧
      s.builder.identifiers = accepted.flatMap Declaration.identifiers) ∧
    (∀ c x, c.declaration? = some x →
      (s.outcome c = .ok () ↔ x.Admissible accepted) ∧
      (s.outcome c = .ok () →
        (s.call c).builder = { s.builder with drafts := s.builder.drafts ++ [x.draft id] } ∧
        (s.call c).builder.drafts.map Draft.name = s.builder.drafts.map Draft.name ++ [x.name] ∧
        (s.call c).builder.identifiers = s.builder.identifiers ++ x.identifiers)) ∧
    ∀ c e, c.isDeclaring → s.outcome c = .error e →
      (s.call c).builder = s.builder ∧
      ∀ later retry, ((s.call c).run later).outcome retry = (s.run later).outcome retry := by
  have hsound := BuildSession.start_sound id title calls
  rw [← hs] at hsound
  have hdeclared : s.builder.declarations = accepted := hsound.declared.trans haccepted.symm
  refine ⟨⟨?_, ?_⟩, fun c x hx => ⟨⟨fun hok => ?_, fun hx' => ?_⟩, fun hok => ?_⟩, fun c e hc he => ?_⟩
  · rw [← hdeclared, Builder.map_name_declarations]
  · rw [← hdeclared, Builder.flatMap_identifiers_declarations]
  · rw [← hdeclared]
    exact (Builder.work_of_accepted hx hok).1
  · exact congrArg Prod.fst (Builder.work_of_admissible hopen hx (hdeclared ▸ hx'))
  · have hadded : (s.call c).builder = s.builder.adding x := (Builder.work_of_accepted hx hok).2
    rw [hadded]
    refine ⟨?_, s.builder.names_adding x, s.builder.identifiers_adding x⟩
    exact congrArg (fun design => { s.builder with drafts := s.builder.drafts ++ [x.draft design] })
      hsound.number
  · have hsame : (s.call c).builder = s.builder := Builder.work_of_refused hc he
    refine ⟨hsame, fun later retry => ?_⟩
    unfold BuildSession.outcome
    rw [BuildSession.run_congr hsame later]

/-! A method whose argument has the name that a signal of a rule would have. -/

namespace Clashing

def method : Declaration := .action "a" [⟨"b_firing", .bit⟩]

def session : BuildSession := (BuildSession.start 7 "M").run [.action "a" [⟨"b_firing", .bit⟩]]

end Clashing

theorem declaration_exact_clashing :
    Clashing.session.builder.frozen = false ∧
    ¬ (Declaration.rule "a_b").Admissible [Clashing.method] ∧
    Clashing.session.outcome (.rule "a_b") = .error (.construction "M" "a_b_firing" .duplicateName) ∧
    (Clashing.session.call (.rule "a_b")).builder = Clashing.session.builder ∧
    (Declaration.rule "a_c").Admissible [Clashing.method] ∧
    (Clashing.session.call (.rule "a_b")).outcome (.rule "a_c") = .ok () := by
  obtain ⟨-, hexact, hrefused⟩ := declaration_exact 7 "M" [.action "a" [⟨"b_firing", .bit⟩]]
    Clashing.session [Clashing.method] rfl (by decide +kernel) rfl
  have hclash : Clashing.session.outcome (.rule "a_b") =
      .error (.construction "M" "a_b_firing" .duplicateName) := by decide +kernel
  have hfree : Clashing.session.outcome (.rule "a_c") = .ok () := by decide +kernel
  obtain ⟨hsame, hretry⟩ := hrefused _ _ rfl hclash
  refine ⟨rfl, ?_, hclash, hsame, (hexact _ _ rfl).1.mp hfree, (hretry [] _).trans hfree⟩
  rw [← (hexact (.rule "a_b") _ rfl).1, hclash]
  exact fun h => by cases h

/-! The state of a design -/

/-- What a call with the given outcome has declared as state. -/
def Call.states? : Call → Except Error Unit → Option (List (Option State))
  | .declare states, .ok () => some states
  | _, _ => none

theorem Call.states?_of_ne {c : Call} (hc : ∀ states, c ≠ .declare states) (r : Except Error Unit) :
    c.states? r = none := by
  cases c with
  | declare states => exact absurd rfl (hc states)
  | _ => rfl

/-- What the accepted declarations of state were given, one list for each. -/
def History.states (history : History) : List (List (Option State)) :=
  history.filterMap fun h => h.1.states? h.2

namespace Builder

variable {b b' : Builder}

/-- All that a call can do to a builder besides what it does to the drafts. -/
inductive Change (b : Builder) : Call → Except Error Unit → Builder → Prop
  | drafts {c : Call} {r : Except Error Unit} (drafts : List Draft)
      (hc : ∀ states, c ≠ .declare states) : Change b c r { b with drafts }
  | state {states : List (Option State)} {r : Except Error Unit} {b' : Builder}
      (h : b.Extends states r b') : Change b (.declare states) r b'
  | finished {r : Except Error Unit} : Change b .build r { b with frozen := true }

theorem Declares.change {c : Call} {x : Declaration} {r : Except Error Unit}
    (h : b.Declares x r b') (hx : c.declaration? = some x) : b.Change c r b' := by
  have hc : ∀ states, c ≠ .declare states := by
    rintro states rfl
    cases hx
  cases h with
  | refused e => exact .drafts b.drafts hc
  | accepted => exact .drafts (b.drafts ++ [x.draft b.id]) hc

theorem edit_change {name : String} {call : DraftCall} {r : Except Error Unit}
    (h : (edit name call.work).run.run b = (r, b')) : b.Change (.edit name call) r b' := by
  have hc : ∀ states, Call.edit name call ≠ .declare states := fun _ heq => by cases heq
  cases hd : b.draft? name with
  | none =>
    rw [edit_of_none hd] at h
    cases h
    exact .drafts b.drafts hc
  | some d =>
    rw [edit_of_some hd] at h
    cases h
    exact .drafts _ hc

theorem finish_change {r : Except Error Design} {r' : Except Error Unit}
    (h : finish.run.run b = (r, b')) : b.Change .build r' b' := by
  have hc : ∀ states, Call.build ≠ .declare states := fun _ heq => by cases heq
  rw [finish, run_getThe_bind] at h
  split_ifs at h
  · cases h
    exact .drafts b.drafts hc
  · rcases ofExcept_bind_cases h with ⟨-, rfl⟩ | ⟨cs, -, h⟩
    · exact .drafts b'.drafts hc
    · cases h
      exact .finished

theorem work_change (b : Builder) (c : Call) :
    b.Change c (c.work.run.run b).1 (c.work.run.run b).2 := by
  rcases hrun : c.work.run.run b with ⟨r, b'⟩
  cases c with
  | declare states => exact .state (declare_extends hrun)
  | rule name => exact (work_declares rfl hrun).change rfl
  | action name args => exact (work_declares rfl hrun).change rfl
  | value name type => exact (work_declares rfl hrun).change rfl
  | edit name call => exact edit_change hrun
  | build =>
    obtain ⟨r', hfinish⟩ := run_ignoring hrun
    exact finish_change hfinish

/-- What is finished stays finished. -/
theorem Change.frozen {c : Call} {r : Except Error Unit} (h : b.Change c r b') (hb : b.frozen) :
    b'.frozen := by
  cases h with
  | drafts => exact hb
  | state h => cases h <;> exact hb
  | finished => rfl

/-- The state of a builder is what the `groups` of elements hold together, and no two of them have
one in common. -/
structure Holds (b : Builder) (groups : List (List (Option State))) : Prop where
  state : b.state.map some = groups.flatten
  apart : groups.Pairwise List.Disjoint

variable {groups : List (List (Option State))}

theorem Holds.mem_iff (h : b.Holds groups) (s : State) : s ∈ b.state ↔ ∃ g ∈ groups, some s ∈ g := by
  rw [← List.mem_flatten, ← h.state, List.mem_map_of_injective (Option.some_injective State)]

theorem Holds.nodup_iff (h : b.Holds groups) : b.state.Nodup ↔ ∀ g ∈ groups, g.Nodup := by
  rw [← List.nodup_map_iff (Option.some_injective State), h.state, List.nodup_flatten,
    and_iff_left h.apart]

theorem Extends.holds {states : List (Option State)} {r : Except Error Unit}
    (h : b.Extends states r b') (hb : b.Holds groups) :
    b'.Holds (groups ++ ((Call.declare states).states? r).toList) := by
  cases h with
  | refused e => simpa [Call.states?] using hb
  | accepted elements hstates hfresh =>
    rw [Call.states?, Option.toList_some]
    refine ⟨?_, List.pairwise_append.mpr ⟨hb.apart, List.pairwise_singleton .., ?_⟩⟩
    · rw [List.map_append, hb.state, hstates, List.flatten_concat]
    · intro g hg g' hg' x hx hx'
      rw [List.mem_singleton.mp hg', hstates] at hx'
      obtain ⟨s, hs, rfl⟩ := List.mem_map.mp hx'
      exact hfresh s hs ((hb.mem_iff s).mpr ⟨g, hg, hx⟩)

theorem Change.holds {c : Call} {r : Except Error Unit} (h : b.Change c r b') (hb : b.Holds groups) :
    b'.Holds (groups ++ (c.states? r).toList) := by
  cases h with
  | drafts drafts hc =>
    rw [Call.states?_of_ne hc, Option.toList_none, List.append_nil]
    exact ⟨hb.state, hb.apart⟩
  | state h => exact h.holds hb
  | finished =>
    rw [Call.states?_of_ne (fun _ heq => by cases heq), Option.toList_none, List.append_nil]
    exact ⟨hb.state, hb.apart⟩

/-- State is accepted exactly if all elements are there and none was given before. -/
theorem declare_ok_iff (hopen : b.frozen = false) (hb : b.Holds groups)
    {states : List (Option State)} :
    ((declare states).run.run b).1 = .ok () ↔ none ∉ states ∧ ∀ g ∈ groups, states.Disjoint g := by
  constructor
  · intro hok
    rcases hrun : (declare states).run.run b with ⟨r, b'⟩
    rw [hrun] at hok
    cases hok
    cases declare_extends hrun with
    | accepted elements hstates hfresh =>
      subst hstates
      refine ⟨by simp, fun g hg x hx hx' => ?_⟩
      obtain ⟨s, hs, rfl⟩ := List.mem_map.mp hx
      exact hfresh s hs ((hb.mem_iff s).mpr ⟨g, hg, hx'⟩)
  · rintro ⟨hnone, hfresh⟩
    refine declare_of_fresh hopen hnone fun s hs hmem => ?_
    obtain ⟨g, hg, hsg⟩ := (hb.mem_iff s).mp hmem
    exact hfresh g hg hs hsg

end Builder

namespace BuildSession

theorem holds {s : BuildSession} {groups : List (List (Option State))} (h : s.builder.Holds groups)
    (calls : List Call) : (s.run calls).builder.Holds (groups ++ (s.history calls).states) := by
  induction calls generalizing s groups with
  | nil => simpa [run, history, History.states] using h
  | cons c calls ih =>
    have hcall : (s.call c).builder.Holds (groups ++ (c.states? (s.outcome c)).toList) :=
      (s.builder.work_change c).holds h
    have hrun := ih hcall
    have hstates : (s.history (c :: calls)).states =
        (c.states? (s.outcome c)).toList ++ ((s.call c).history calls).states := by
      unfold History.states
      rw [history, List.filterMap_cons]
      unfold outcome
      cases c.states? (c.work.run.run s.builder).1 <;> rfl
    rw [hstates, ← List.append_assoc]
    exact hrun

theorem frozen_run {s : BuildSession} (h : s.builder.frozen) (calls : List Call) :
    (s.run calls).builder.frozen := by
  induction calls generalizing s with
  | nil => exact h
  | cons c calls ih => exact ih ((s.builder.work_change c).frozen h)

theorem open_of_design {s : BuildSession} {d : Design} (h : s.design = .ok d) :
    s.builder.frozen = false := by
  cases hfrozen : s.builder.frozen with
  | false => rfl
  | true =>
    rw [design, Builder.finish, run_getThe_bind, hfrozen] at h
    cases h

theorem start_holds (id : ℕ) (title : String) (calls : List Call) :
    ((start id title).run calls).builder.Holds ((start id title).history calls).states := by
  have hstart : (start id title).builder.Holds [] := ⟨rfl, List.Pairwise.nil⟩
  exact holds hstart calls

end BuildSession

/-- The state of a finished design is what the accepted declarations of state were given, in order,
and no two of them have an element in common. So an element is there twice exactly if one declaration
was given it twice, which is not refused: a declaration is accepted exactly if all its elements are
there and none was given to one before. -/
theorem state_as_declared (id : ℕ) (title : String) (calls : List Call) (d : Design)
    (h : ((BuildSession.start id title).run calls).design = .ok d) :
    d.state.map some = ((BuildSession.start id title).history calls).states.flatten ∧
    ((BuildSession.start id title).history calls).states.Pairwise List.Disjoint ∧
    (d.state.Nodup ↔ ∀ g ∈ ((BuildSession.start id title).history calls).states, g.Nodup) ∧
    ∀ before states after, calls = before ++ .declare states :: after →
      (((BuildSession.start id title).run before).outcome (.declare states) = .ok () ↔
        none ∉ states ∧
          ∀ g ∈ ((BuildSession.start id title).history before).states, states.Disjoint g) := by
  have hholds := BuildSession.start_holds id title calls
  have hopen := BuildSession.open_of_design h
  obtain ⟨cs, -, rfl⟩ := Builder.finish_ok h
  refine ⟨hholds.state, hholds.apart, hholds.nodup_iff, ?_⟩
  rintro before states after rfl
  refine Builder.declare_ok_iff ?_ (BuildSession.start_holds id title before)
  by_contra hfrozen
  rw [Bool.not_eq_false] at hfrozen
  rw [BuildSession.run_append, BuildSession.frozen_run hfrozen] at hopen
  cases hopen

/-! Elements that are declared, in part again and again. -/

namespace Declaring

def x : State := ⟨0, .register none, "x", .bit⟩

def y : State := ⟨1, .wire, "y", .bit⟩

def z : State := ⟨2, .register (some 0), "x", .bit⟩

def calls : List Call := [
  .declare [some x, some y],
  .declare [some z, some y],
  .declare [some z, none],
  .declare [],
  .declare [some z]]

end Declaring

theorem state_as_declared_retried :
    ((BuildSession.start 0 "M").history Declaring.calls).states =
      [[some Declaring.x, some Declaring.y], [], [some Declaring.z]] ∧
    ∃ d, ((BuildSession.start 0 "M").run Declaring.calls).design = .ok d ∧
      d.state.map some = [some Declaring.x, some Declaring.y, some Declaring.z] ∧ d.state.Nodup := by
  have hstates : ((BuildSession.start 0 "M").history Declaring.calls).states =
      [[some Declaring.x, some Declaring.y], [], [some Declaring.z]] := by decide +kernel
  obtain ⟨hstate, -, hnodup, -⟩ := state_as_declared 0 "M" Declaring.calls _ rfl
  rw [hstates] at hstate hnodup
  exact ⟨hstates, _, rfl, hstate, hnodup.mpr (by decide +kernel)⟩

/-- One declaration can give an element twice. -/
theorem state_repeated :
    ∃ d, ((BuildSession.start 0 "M").run
        [.declare [some Declaring.x, some Declaring.x]]).design = .ok d ∧
      ¬ d.state.Nodup :=
  ⟨_, rfl, by decide +kernel⟩

end GuardedRtl
