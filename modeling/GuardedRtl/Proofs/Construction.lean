import GuardedRtl.Proofs.Sessions

/-! Well-formed designs. Whatever calls are made on a builder, and whichever of them are refused, a
design that it finishes has what was declared and nothing else, under distinct names, and each rule
and method has only updates, results and arguments of its own. `Draft.Step.sound` and
`Builder.Step.sound` say what one call keeps, `BuildSession.sound` what a session keeps, and the main
statement is `BuildSession.design_wellFormed`. -/

namespace GuardedRtl

open Rtl

/-! What a session has accepted -/

/-- The declaration that a call with the given outcome has made. -/
def Call.declared (c : Call) : Except Error Unit → List Declaration
  | .ok () => c.declaration?.toList
  | .error _ => []

/-- The result that a call with the given outcome has set. -/
def DraftCall.results : DraftCall → Except Error Unit → List Expr
  | .result e, .ok () => [e]
  | _, _ => []

theorem DraftCall.results_eq_nil {call : DraftCall} {r : Except Error Unit}
    (h : ∀ e, call = .result e → r ≠ .ok ()) : call.results r = [] := by
  cases call with
  | result e =>
    cases r with
    | ok u => exact absurd rfl (h e rfl)
    | error e' => rfl
  | _ => rfl

/-- The result that a call with the given outcome has set for the given draft. -/
def Call.results (draft : String) : Call → Except Error Unit → List Expr
  | .edit name call, r => if name = draft then call.results r else []
  | _, _ => []

/-- Calls with their outcomes, in the order in which they were made. -/
abbrev History := List (Call × Except Error Unit)

namespace History

def declared (history : History) : List Declaration := history.flatMap fun h => h.1.declared h.2

def results (history : History) (draft : String) : List Expr :=
  history.flatMap fun h => h.1.results draft h.2

theorem declared_concat (history : History) (c : Call) (r : Except Error Unit) :
    (history ++ [(c, r)]).declared = history.declared ++ c.declared r := by
  simp [declared]

theorem results_concat (history : History) (c : Call) (r : Except Error Unit) (draft : String) :
    (history ++ [(c, r)]).results draft = history.results draft ++ c.results draft r := by
  simp [results]

end History

namespace BuildSession

/-- The history of the calls. -/
def history (s : BuildSession) : List Call → History
  | [] => []
  | c :: calls => (c, (c.work.run.run s.builder).1) :: (s.call c).history calls

end BuildSession

/-! Drafts -/

/-- The results that a draft holds. -/
def Draft.results (d : Draft) : List Expr :=
  match d.role with
  | .value _ result => result.toList
  | _ => []

/-- The arguments, updates and results of a draft are as they have to be. -/
structure Draft.Sound (d : Draft) (id : ℕ) (given : List Expr) : Prop where
  args : ∀ a ∈ d.args, a.design = id ∧ a.method = d.name
  targets : (d.updates.map Update.target).Nodup
  reads : ∀ type result, d.role = .value type result → d.updates = []
  results : d.results = given

namespace Draft

theorem FitsIn.sound {d : Draft} {b : Builder} (h : d.FitsIn b) : d.Sound b.id [] := by
  obtain ⟨-, -, hupdates, hrole⟩ := h.new
  refine ⟨h.args, by simp [hupdates], fun _ _ _ => hupdates, ?_⟩
  unfold results
  split
  · rename_i type result hvalue
    cases result with
    | none => rfl
    | some e => exact absurd hvalue (hrole type e)
  · rfl

theorem Step.declaration_eq {d d' : Draft} {call : DraftCall} {r : Except Error Unit}
    (h : d.Step call r d') : d'.declaration = d.declaration := by
  cases h with
  | kept hkeeps _ _ => rw [hkeeps]; rfl
  | returned hrole _ => simp [declaration, hrole]
  | _ => rfl

theorem Step.identifiers_eq {d d' : Draft} {call : DraftCall} {r : Except Error Unit}
    (h : d.Step call r d') : d'.identifiers = d.identifiers := by
  cases h with
  | kept hkeeps _ _ => rw [hkeeps]; rfl
  | returned hrole _ => simp [identifiers, suffixes, hrole]
  | _ => rfl

/-- One call keeps a draft sound, whether it is accepted or refused. -/
theorem Step.sound {d d' : Draft} {call : DraftCall} {r : Except Error Unit} {id : ℕ}
    {given : List Expr} (h : d.Step call r d') (hd : d.Sound id given) :
    d'.Sound id (given ++ call.results r) := by
  obtain ⟨hargs, htargets, hreads, hresults⟩ := hd
  cases h with
  | kept hkeeps _ hresult =>
    have hnone : call.results r = [] := DraftCall.results_eq_nil hresult
    rw [hnone, List.append_nil, hkeeps]
    exact ⟨hargs, htargets, hreads, hresults⟩
  | updated hrole hfresh _ =>
    simp only [DraftCall.results, List.append_nil]
    refine ⟨hargs, ?_, fun type result hvalue => absurd hvalue (hrole type result), hresults⟩
    simp only [List.map_append, List.map_cons, List.map_nil]
    exact List.nodup_append.mpr ⟨htargets, List.nodup_singleton _, by
      rintro s hs t ht rfl
      exact hfresh (List.mem_singleton.mp ht ▸ hs)⟩
  | @returned type e hrole _ =>
    have hnone : given = [] := by simpa [results, hrole] using hresults.symm
    refine ⟨?_, htargets, ?_, ?_⟩
    · exact fun a ha => by cases ha
    · exact fun _ _ _ => hreads type none hrole
    · simp [hnone, results, DraftCall.results]
  | guarded _ => simpa [DraftCall.results] using ⟨hargs, htargets, hreads, hresults⟩
  | displayed _ => simpa [DraftCall.results] using ⟨hargs, htargets, hreads, hresults⟩
  | stopped => simpa [DraftCall.results] using ⟨hargs, htargets, hreads, hresults⟩

end Draft

/-! Builders -/

namespace Builder

theorem firstClash_eq_none {taken ids : List String} (h : firstClash taken ids = none) :
    ids.Nodup ∧ ∀ x ∈ ids, x ∉ taken := by
  induction ids generalizing taken with
  | nil => exact ⟨List.nodup_nil, List.forall_mem_nil _⟩
  | cons x ids ih =>
    rw [firstClash] at h
    split_ifs at h with hx
    obtain ⟨hnodup, hfree⟩ := ih h
    refine ⟨List.nodup_cons.mpr ⟨fun hmem => hfree x hmem (List.mem_cons_self ..), hnodup⟩, ?_⟩
    refine List.forall_mem_cons.mpr ⟨hx, fun y hy htaken => ?_⟩
    exact hfree y hy (List.mem_cons_of_mem _ htaken)

/-- What the drafts of a builder have become under a history. -/
structure Sound (b : Builder) (id : ℕ) (history : History) : Prop where
  number : b.id = id
  declared : b.drafts.map Draft.declaration = history.declared
  named : ∀ d ∈ b.drafts, d.name ≠ ""
  distinct : (b.drafts.map Draft.name).Nodup
  identifiers : b.identifiers.Nodup
  drafts : ∀ d ∈ b.drafts, d.Sound id (history.results d.name)
  unused : ∀ name, name ∉ b.drafts.map Draft.name → history.results name = []

theorem Sound.start (id : ℕ) (name : String) : Sound { id, name } id [] := by
  constructor <;> simp [History.declared, History.results, Builder.identifiers]

/-- What is the same of the old and the new draft is the same of all drafts. -/
theorem replaceDraft_map {α : Type} (g : Draft → α) {b : Builder} {d d' : Draft}
    (hdistinct : (b.drafts.map Draft.name).Nodup) (hd : d ∈ b.drafts) (hname : d'.name = d.name)
    (hg : g d' = g d) : (b.replaceDraft d').drafts.map g = b.drafts.map g := by
  rw [replaceDraft, List.map_map]
  refine List.map_congr_left fun x hx => ?_
  simp only [Function.comp_apply]
  split_ifs with h
  · rw [hg, List.inj_on_of_nodup_map hdistinct hx hd (h.trans hname)]
  · rfl

variable {b b' : Builder} {id : ℕ} {history : History}

theorem Sound.added {d : Draft} {c : Call} (hb : b.Sound id history) (hfits : d.FitsIn b)
    (hid : b'.id = b.id) (hdrafts : b'.drafts = b.drafts ++ [d])
    (hdeclaration : c.declaration? = some d.declaration) :
    b'.Sound id (history ++ [(c, .ok ())]) := by
  have hresults (draft : String) : c.results draft (.ok ()) = [] := by
    cases c with
    | edit name call => cases hdeclaration
    | _ => rfl
  obtain ⟨hfresh, hapart⟩ := firstClash_eq_none hfits.free
  constructor
  case number =>
    exact hid.trans hb.number
  case declared =>
    rw [hdrafts, List.map_append, hb.declared, History.declared_concat]
    simp [Call.declared, hdeclaration]
  case named =>
    rw [hdrafts]
    exact List.forall_mem_append.mpr ⟨hb.named, List.forall_mem_singleton.mpr hfits.named⟩
  case distinct =>
    rw [hdrafts, List.map_append]
    refine List.nodup_append.mpr ⟨hb.distinct, List.nodup_singleton _, ?_⟩
    rintro x hx y hy rfl
    exact hfits.distinct (List.mem_singleton.mp hy ▸ hx)
  case identifiers =>
    rw [Builder.identifiers, hdrafts, List.flatMap_append, List.flatMap_singleton]
    refine List.nodup_append.mpr ⟨hb.identifiers, hfresh, ?_⟩
    rintro x hx y hy rfl
    exact hapart x hy hx
  case drafts =>
    simp only [History.results_concat, hresults, List.append_nil, hdrafts]
    -- the name is new, so that no result was ever given under it
    have hnew : d.Sound id (history.results d.name) := by
      rw [hb.unused d.name hfits.distinct, ← hb.number]
      exact hfits.sound
    exact List.forall_mem_append.mpr ⟨hb.drafts, List.forall_mem_singleton.mpr hnew⟩
  case unused =>
    intro name hname
    rw [History.results_concat, hresults, List.append_nil]
    refine hb.unused name fun hmem => hname ?_
    rw [hdrafts, List.map_append]
    exact List.mem_append_left _ hmem

theorem Sound.edited {d d' : Draft} {name : String} {call : DraftCall} {r : Except Error Unit}
    (hb : b.Sound id history) (hd : d ∈ b.drafts) (hname : d.name = name) (hstep : d.Step call r d') :
    (b.replaceDraft d').Sound id (history ++ [(.edit name call, r)]) := by
  have hname' := hstep.name_eq
  -- all drafts but one are as they were, and that one has kept what the others must not have
  have hmap {α : Type} (g : Draft → α) (hg : g d' = g d) :
      (b.replaceDraft d').drafts.map g = b.drafts.map g :=
    replaceDraft_map g hb.distinct hd hname' hg
  have hnames := hmap Draft.name hname'
  have hdeclared : (Call.edit name call).declared r = [] := by cases r <;> rfl
  constructor
  case number =>
    exact hb.number
  case declared =>
    rw [hmap _ hstep.declaration_eq, hb.declared, History.declared_concat, hdeclared,
      List.append_nil]
  case named =>
    intro x hx
    have hmem : x.name ∈ b.drafts.map Draft.name := hnames ▸ List.mem_map_of_mem hx
    obtain ⟨y, hy, hxy⟩ := List.mem_map.mp hmem
    exact hxy ▸ hb.named y hy
  case distinct =>
    rw [hnames]
    exact hb.distinct
  case identifiers =>
    have hids : (b.replaceDraft d').identifiers = b.identifiers := by
      rw [Builder.identifiers, Builder.identifiers, List.flatMap_def, List.flatMap_def,
        hmap _ hstep.identifiers_eq]
    rw [hids]
    exact hb.identifiers
  case drafts =>
    intro x hx
    rw [History.results_concat]
    obtain ⟨y, hy, rfl⟩ := List.mem_map.mp hx
    split_ifs with heq
    · have hsound := hstep.sound (hb.drafts d hd)
      simpa [Call.results, hname, hname'] using hsound
    · have hne : name ≠ y.name := by
        rw [← hname, ← hname']
        exact Ne.symm heq
      simpa [Call.results, hne] using hb.drafts y hy
  case unused =>
    intro draft hdraft
    rw [hnames] at hdraft
    have hne : name ≠ draft := by
      rintro rfl
      exact hdraft (hname ▸ List.mem_map_of_mem hd)
    rw [History.results_concat]
    simpa [Call.results, hne] using hb.unused draft hdraft

/-- One call keeps a builder sound, whether it is accepted or refused. -/
theorem Step.sound {c : Call} {r : Except Error Unit} (h : b.Step c r b') (hb : b.Sound id history) :
    b'.Sound id (history ++ [(c, r)]) := by
  cases h with
  | kept hid hdrafts _ hdeclaration hresults =>
    have hdeclared : c.declared r = [] := by
      cases r with
      | ok u => simp [Call.declared, hdeclaration rfl]
      | error e => rfl
    have hnone (draft : String) : c.results draft r = [] := by
      cases c with
      | edit name call =>
        have hcall : call.results r = [] := DraftCall.results_eq_nil fun e he => hresults name e (he ▸ rfl)
        simp [Call.results, hcall]
      | _ => rfl
    obtain ⟨hnumber, hdeclared', hnamed, hdistinct, hidentifiers, hsound, hunused⟩ := hb
    have hids : b'.identifiers = b.identifiers := by simp only [Builder.identifiers, hdrafts]
    refine ⟨hid.trans hnumber, ?_, ?_, ?_, ?_, ?_, ?_⟩
    all_goals simp only [hdrafts, hids, History.declared_concat, History.results_concat, hdeclared, hnone,
      List.append_nil]
    all_goals assumption
  | added d hfits hid hdrafts _ hdeclaration => exact hb.added hfits hid hdrafts hdeclaration
  | edited hd hname hstep => exact hb.edited hd hname hstep

end Builder

namespace BuildSession

/-- Whatever calls are made, the builder is sound under their history. -/
theorem sound {id : ℕ} {s : BuildSession} {history : History} (h : s.builder.Sound id history)
    (calls : List Call) : (s.run calls).builder.Sound id (history ++ s.history calls) := by
  induction calls generalizing s history with
  | nil => simpa [BuildSession.run, BuildSession.history] using h
  | cons c calls ih =>
    have hcall : (s.call c).builder.Sound id (history ++ [(c, (c.work.run.run s.builder).1)]) :=
      (Builder.work_step rfl).sound h
    have hrun := ih hcall
    rw [List.append_assoc] at hrun
    exact hrun

end BuildSession

/-! Finished designs -/

def Declaration.isRule : Declaration → Bool
  | .rule _ => true
  | _ => false

/-- What a construct was declared as. -/
def Construct.declaration : Construct → Declaration
  | .rule r => .rule r.name
  | .method (.action r args) => .action r.name (args.map Argument.field)
  | .method (.value r type _) => .value r.name type

/-- The names of the signals and ports of a construct, without its own name before them. -/
def Construct.suffixes : Construct → List String
  | .rule _ => ["can_fire", "firing"]
  | .method (.action _ args) =>
    "can_fire" :: "firing" :: "enable" :: "ready" :: args.map Argument.name
  | .method (.value _ _ _) => ["can_fire", "firing", "ready", "value"]

/-- A design with nothing but what was declared, in which every rule and method has identifiers,
updates, results and arguments of its own. -/
structure Design.WellFormed (d : Design) (id : ℕ) (history : History) : Prop where
  rules : d.rules.map (fun r => Construct.declaration (.rule r)) =
    history.declared.filter Declaration.isRule
  methods : d.methods.map (fun m => Construct.declaration (.method m)) =
    history.declared.filter fun x => !x.isRule
  named : ∀ c ∈ d.constructs, c.name ≠ ""
  distinct : (d.constructs.map Construct.name).Nodup
  signals : ∀ c ∈ d.constructs, c.identifiers.Perm (c.suffixes.map fun s => c.name ++ "_" ++ s)
  identifiers : ([clockName, resetName] ++ d.constructs.flatMap Construct.identifiers).Nodup
  updates : ∀ c ∈ d.constructs, (c.core.updates.map Update.target).Nodup
  values : ∀ r type e, .value r type e ∈ d.methods →
    r.updates = [] ∧ e.isPresent ∧ history.results r.name = [e]
  arguments : ∀ c ∈ d.constructs, ∀ e ∈ c.expressions, ∀ a, .leaf (.argument a) ∈ e.parts →
    a ∈ c.args ∧ a.design = id ∧ a.method = c.name

/-- What a finished draft has become. -/
structure Draft.Becomes (d : Draft) (c : Construct) : Prop where
  name : c.name = d.name
  declaration : c.declaration = d.declaration
  suffixes : c.suffixes = d.suffixes
  args : c.args = d.args
  updates : c.core.updates = d.updates
  value : ∀ r type e, c = .method (.value r type e) → d.role = .value type (some e)

theorem Draft.becomes {d : Draft} {c : Construct} (h : d.toConstruct? = some c) : d.Becomes c := by
  unfold toConstruct? at h
  split at h
  · rename_i hrole
    cases h
    constructor <;> simp [Construct.name, Construct.core, toRule, Construct.declaration, declaration,
      Construct.suffixes, suffixes, Construct.args, args, hrole]
  · rename_i args hrole
    cases h
    constructor <;> simp [Construct.name, Construct.core, Method.rule, toRule, Construct.declaration,
      declaration, Construct.suffixes, suffixes, Construct.args, Draft.args, hrole]
  · rename_i type result hrole
    obtain ⟨e, rfl, rfl⟩ := Option.map_eq_some_iff.mp h
    constructor <;> simp [Construct.name, Construct.core, Method.rule, toRule, Construct.declaration,
      declaration, Construct.suffixes, suffixes, Construct.args, Draft.args, hrole]

theorem Draft.map_eq {α : Type} {f : Draft → α} {g : Construct → α} {ds : List Draft}
    {cs : List Construct} (hfg : ∀ d c, d.Becomes c → g c = f d)
    (h : ds.map Draft.toConstruct? = cs.map some) : cs.map g = ds.map f := by
  induction ds generalizing cs with
  | nil =>
    cases cs with
    | nil => rfl
    | cons c cs => cases h
  | cons d ds ih =>
    cases cs with
    | nil => cases h
    | cons c cs =>
      simp only [List.map_cons, List.cons.injEq] at h ⊢
      exact ⟨hfg d c (Draft.becomes h.1), ih h.2⟩

/-- Rules and methods, in the order of their declaration, are the constructs in another order. -/
theorem constructs_perm (name : String) (state : List State) (cs : List Construct) :
    (Design.constructs ⟨name, state, Builder.rulesOf cs, Builder.methodsOf cs⟩).Perm cs := by
  unfold Design.constructs
  induction cs with
  | nil => rfl
  | cons c cs ih =>
    cases c with
    | rule r => exact ih.cons _
    | method m => exact List.perm_middle.trans (ih.cons _)

theorem rulesOf_declarations (cs : List Construct) :
    (Builder.rulesOf cs).map (fun r => Construct.declaration (.rule r)) =
      (cs.map Construct.declaration).filter Declaration.isRule := by
  induction cs with
  | nil => rfl
  | cons c cs ih =>
    cases c with
    | rule r => exact congrArg (List.cons _) ih
    | method m => cases m <;> exact ih

theorem methodsOf_declarations (cs : List Construct) :
    (Builder.methodsOf cs).map (fun m => Construct.declaration (.method m)) =
      (cs.map Construct.declaration).filter fun x => !x.isRule := by
  induction cs with
  | nil => rfl
  | cons c cs ih =>
    cases c with
    | rule r => exact ih
    | method m => cases m <;> exact congrArg (List.cons _) ih

namespace Construct

theorem identifiers_suffixes {c : Construct} (h : ∀ a ∈ c.args, a.method = c.name) :
    c.identifiers.Perm (c.suffixes.map fun s => c.name ++ "_" ++ s) := by
  cases c with
  | rule r => rfl
  | method m =>
    cases m with
    | value r type e => rfl
    | action r args =>
      have hports : (args.map fun a => Port.input a.port a.type).map Port.name =
          (args.map Argument.name).map fun s => (method (.action r args)).name ++ "_" ++ s := by
        rw [List.map_map, List.map_map]
        refine List.map_congr_left fun a ha => ?_
        simp [Port.input, Argument.port, h a ha]
      simp only [identifiers, ports, suffixes, List.map_cons, List.map_append, List.map_nil, hports]
      exact (((List.perm_append_singleton _ _).cons _).cons _).cons _

/-- No identifier of a construct is that of a standard port, which has no underscore. -/
theorem identifiers_apart {c : Construct} (h : ∀ a ∈ c.args, a.method = c.name) {x : String}
    (hx : x ∈ c.identifiers) : x ∉ [clockName, resetName] := by
  obtain ⟨s, -, rfl⟩ := List.mem_map.mp ((identifiers_suffixes h).mem_iff.mp hx)
  have hunderscore : '_' ∈ (c.name ++ "_" ++ s).toList := by simp
  intro hmem
  rcases List.mem_cons.mp hmem with heq | hmem
  · rw [heq] at hunderscore
    exact absurd hunderscore (by decide)
  · rw [List.mem_singleton.mp hmem] at hunderscore
    exact absurd hunderscore (by decide)

end Construct

namespace BuildSession

variable {id : ℕ} {name : String} {calls : List Call} {d : Design}

theorem start_sound (id : ℕ) (name : String) (calls : List Call) :
    ((start id name).run calls).builder.Sound id ((start id name).history calls) := by
  have h := sound (s := start id name) (Builder.Sound.start id name) calls
  simpa using h

/-- The constructs of a finished design, in the order of their drafts. -/
theorem exists_constructs (h : ((start id name).run calls).design = .ok d) :
    ∃ cs, ((start id name).run calls).builder.drafts.map Draft.toConstruct? = cs.map some ∧
      d.rules = Builder.rulesOf cs ∧ d.methods = Builder.methodsOf cs ∧ d.constructs.Perm cs := by
  obtain ⟨cs, hcs, rfl⟩ := Builder.finish_ok h
  exact ⟨cs, Builder.collect_ok hcs, rfl, rfl, constructs_perm ..⟩

/-- Every construct of a finished design comes from a draft that is sound. -/
theorem exists_draft (h : ((start id name).run calls).design = .ok d) {c : Construct}
    (hc : c ∈ d.constructs) :
    ∃ draft ∈ ((start id name).run calls).builder.drafts, draft.Becomes c ∧
      draft.Sound id (((start id name).history calls).results draft.name) := by
  obtain ⟨cs, hcs, -, -, hperm⟩ := exists_constructs h
  have hmem : some c ∈ ((start id name).run calls).builder.drafts.map Draft.toConstruct? := by
    rw [hcs]
    exact List.mem_map_of_mem (hperm.mem_iff.mp hc)
  obtain ⟨draft, hdraft, hconstruct⟩ := List.mem_map.mp hmem
  exact ⟨draft, hdraft, Draft.becomes hconstruct,
    (start_sound id name calls).drafts draft hdraft⟩

theorem args_own (h : ((start id name).run calls).design = .ok d) {c : Construct}
    (hc : c ∈ d.constructs) : ∀ a ∈ c.args, a.design = id ∧ a.method = c.name := by
  obtain ⟨draft, -, hbecomes, hsound⟩ := exists_draft h hc
  rw [hbecomes.args, hbecomes.name]
  exact hsound.args

/-- The identifiers of a finished design are distinct, also from those of the standard ports. -/
theorem identifiers_nodup (h : ((start id name).run calls).design = .ok d) :
    ([clockName, resetName] ++ d.constructs.flatMap Construct.identifiers).Nodup := by
  obtain ⟨cs, hcs, -, -, hperm⟩ := exists_constructs h
  have hspelled : (cs.map fun c => c.suffixes.map fun s => c.name ++ "_" ++ s) =
      ((start id name).run calls).builder.drafts.map Draft.identifiers :=
    Draft.map_eq (fun draft c hbecomes => by
      rw [hbecomes.suffixes, hbecomes.name, Draft.identifiers]) hcs
  have hnodup : (cs.flatMap fun c => c.suffixes.map fun s => c.name ++ "_" ++ s).Nodup := by
    rw [List.flatMap_def, hspelled, ← List.flatMap_def]
    exact (start_sound id name calls).identifiers
  have hids : (d.constructs.flatMap Construct.identifiers).Perm
      (cs.flatMap fun c => c.suffixes.map fun s => c.name ++ "_" ++ s) := by
    refine (List.Perm.flatMap_left _ fun c hc => ?_).trans (hperm.flatMap_right _)
    exact Construct.identifiers_suffixes fun a ha => (args_own h hc a ha).2
  refine List.nodup_append.mpr ⟨by decide, hids.nodup_iff.mpr hnodup, ?_⟩
  rintro x hx y hy rfl
  obtain ⟨c, hc, hy⟩ := List.mem_flatMap.mp hy
  exact Construct.identifiers_apart (fun a ha => (args_own h hc a ha).2) hy hx

/-- What a builder finishes is well formed, whatever calls were made before and whichever of them
were refused. -/
theorem design_wellFormed (id : ℕ) (name : String) (calls : List Call) (d : Design)
    (h : ((start id name).run calls).design = .ok d) :
    d.WellFormed id ((start id name).history calls) := by
  have hsound := start_sound id name calls
  obtain ⟨cs, hcs, hrules, hmethods, hperm⟩ := exists_constructs h
  have hdeclared : cs.map Construct.declaration = ((start id name).history calls).declared := by
    rw [← hsound.declared]
    exact Draft.map_eq (fun _ _ hbecomes => hbecomes.declaration) hcs
  constructor
  case rules =>
    rw [hrules, rulesOf_declarations, hdeclared]
  case methods =>
    rw [hmethods, methodsOf_declarations, hdeclared]
  case named =>
    intro c hc
    obtain ⟨draft, hdraft, hbecomes, -⟩ := exists_draft h hc
    rw [hbecomes.name]
    exact hsound.named draft hdraft
  case distinct =>
    rw [(hperm.map _).nodup_iff, Draft.map_eq (fun _ _ hbecomes => hbecomes.name) hcs]
    exact hsound.distinct
  case signals =>
    exact fun c hc => Construct.identifiers_suffixes fun a ha => (args_own h hc a ha).2
  case identifiers =>
    exact identifiers_nodup h
  case updates =>
    intro c hc
    obtain ⟨draft, -, hbecomes, hdraft⟩ := exists_draft h hc
    rw [hbecomes.updates]
    exact hdraft.targets
  case values =>
    intro r type e hmem
    have hc : .method (.value r type e) ∈ d.constructs :=
      List.mem_append_right _ (List.mem_map_of_mem hmem)
    obtain ⟨draft, -, hbecomes, hdraft⟩ := exists_draft h hc
    have hrole := hbecomes.value r type e rfl
    have hresult : e ∈ Construct.expressions (.method (.value r type e)) :=
      List.mem_append_right _ (List.mem_singleton.mpr rfl)
    refine ⟨?_, ((BuildSession.coherent h _ hc).expressions e hresult).present, ?_⟩
    · exact hbecomes.updates.trans (hdraft.reads type (some e) hrole)
    · have hresults := hdraft.results
      rw [Draft.results, hrole] at hresults
      exact (hbecomes.name ▸ hresults).symm
  case arguments =>
    intro c hc e he a ha
    have hown : a ∈ c.args := ((BuildSession.coherent h c hc).expressions e he).leaves _ ha
    exact ⟨hown, args_own h hc a hown⟩

end BuildSession

/-! A session in which calls are refused: a rule whose signal would have the name of an argument, a
rule without a name, a second rule of one name, and an update of a rule that is finished. -/

namespace Colliding

def count : State := ⟨0, .register (some 0), "count", .bit⟩

def argument : Argument := ⟨7, "a", "b_firing", .bit⟩

def calls : List Call := [
  .action "a" [⟨"b_firing", .bit⟩],
  .rule "a_b",
  .rule "go",
  .rule "",
  .value "v" .bit,
  .edit "go" (.update (some count) .one),
  .edit "v" (.result (.leaf (.state count))),
  .edit "a" (.guard (.leaf (.argument argument))),
  .edit "go" .buildRule,
  .rule "go",
  .edit "go" (.update (some count) .one),
  .edit "a" (.update (some count) (.leaf (.argument argument))),
  .edit "v" .build,
  .edit "a" .build]

end Colliding

theorem BuildSession.design_wellFormed_colliding :
    ((BuildSession.start 7 "M").history Colliding.calls).declared =
      [.action "a" [⟨"b_firing", .bit⟩], .rule "go", .value "v" .bit] ∧
    ∃ d, ((BuildSession.start 7 "M").run Colliding.calls).design = .ok d ∧
      d.WellFormed 7 ((BuildSession.start 7 "M").history Colliding.calls) := by
  refine ⟨by decide +kernel, ?_⟩
  have hok : ((BuildSession.start 7 "M").run Colliding.calls).design.isOk := by decide +kernel
  cases h : ((BuildSession.start 7 "M").run Colliding.calls).design with
  | error e =>
    rw [h] at hok
    cases hok
  | ok d => exact ⟨d, rfl, BuildSession.design_wellFormed 7 "M" Colliding.calls d h⟩

end GuardedRtl
