import GuardedRtl.Design.Draft
import GuardedRtl.Proofs.Check
import GuardedRtl.Proofs.Reference

/-! Drafts under any calls. A draft keeps the conjunction of the conjuncts that it accepted for its
guard, and its expressions use, besides state, only arguments of its own: `Draft.Step` says what one
call can do, and `Draft.Step.coherent` that it keeps this. -/

namespace GuardedRtl.Rtl

/-! Expressions that a rule or method may use -/

def Leaf.Available (args : List Argument) : Leaf → Prop
  | .state _ => True
  | .argument a => a ∈ args
  | _ => False

mutual

/-- Whether the type and all types within it are of the circuit language. -/
def Ty.IsNative : Ty → Prop
  | .vector elem _ => elem.IsNative
  | .bundle fields => Field.AllNative fields
  | .foreign _ => False
  | _ => True

def Field.AllNative : List Field → Prop
  | [] => True
  | ⟨_, type⟩ :: fields => type.IsNative ∧ Field.AllNative fields

end

/-- The expression is there, its leaves are state elements and the given arguments, and its literals
have types of the circuit language. -/
structure Expr.Within (args : List Argument) (e : Expr) : Prop where
  present : e.isPresent
  leaves : ∀ l, .leaf l ∈ e.parts → l.Available args
  literals : ∀ v t, .literal v t ∈ e.parts → t.IsNative

theorem Expr.Within.and {args : List Argument} {a b : Expr} (ha : a.Within args)
    (hb : b.Within args) : (Expr.and a b).Within args := by
  refine ⟨rfl, ?_, ?_⟩
  · simpa [Expr.and, Expr.parts, or_imp, forall_and] using ⟨ha.leaves, hb.leaves⟩
  · simpa [Expr.and, Expr.parts, or_imp, forall_and] using ⟨ha.literals, hb.literals⟩

end GuardedRtl.Rtl

namespace GuardedRtl

open Rtl

/-! What a check lets through -/

theorem node_visit_ok {f : Node → Except Error Bool} {n : Node} {cs : List Tree}
    (hf : f n = .ok true) (h : Tree.visitAll f [.node n cs] = .ok ()) :
    Tree.visitAll f cs = .ok () := by
  obtain ⟨hnode, -⟩ := visitAll_cons_ok.mp h
  rcases visit_node_ok.mp hnode with hfalse | ⟨-, -, hcs⟩
  · rw [hf] at hfalse
    cases hfalse
  · exact hcs

theorem Draft.admits_leaf {d : Draft} {field : String} {l : Leaf}
    (h : Tree.visitAll (d.admits field) (Expr.leaf l).trees = .ok ()) : l.Available d.args := by
  obtain ⟨hnode, -⟩ := visitAll_cons_ok.mp h
  rw [visit_node_ok] at hnode
  cases l with
  | state s => trivial
  | argument a =>
    by_contra ha
    simp only [Leaf.Available] at ha
    simp [Draft.admits, ha] at hnode
  | unboundArgument => simp [Draft.admits] at hnode
  | foreign kind name => simp [Draft.admits, Node.isKnown] at hnode

mutual

theorem native_of_visit {d : Draft} {field : String} (t : Ty)
    (h : Tree.visitAll (d.admits field) t.trees = .ok ()) : t.IsNative := by
  cases t with
  | vector elem count => exact native_of_visit elem (node_visit_ok rfl h)
  | bundle fields => exact allNative_of_visit fields (node_visit_ok rfl h)
  | foreign kind =>
    obtain ⟨hnode, -⟩ := visitAll_cons_ok.mp h
    simp [visit_node_ok, Draft.admits, Node.isKnown] at hnode
  | _ => trivial
termination_by structural t

theorem allNative_of_visit {d : Draft} {field : String} (fs : List Field)
    (h : Tree.visitAll (d.admits field) (Field.trees fs) = .ok ()) : Field.AllNative fs := by
  cases fs with
  | nil => trivial
  | cons f fs =>
    obtain ⟨name, type⟩ := f
    obtain ⟨hfield, hfs⟩ := visitAll_cons_ok.mp h
    have htype := node_visit_ok rfl (visitAll_cons_ok.mpr ⟨hfield, visitAll_nil_ok⟩)
    exact ⟨native_of_visit type htype, allNative_of_visit fs hfs⟩
termination_by structural fs

end

/-- What a visit accepts it accepts in every part. -/
theorem Draft.visit_part {d : Draft} {field : String} {e : Expr}
    (h : Tree.visitAll (d.admits field) e.trees = .ok ()) :
    ∀ p ∈ e.parts, Tree.visitAll (d.admits field) p.trees = .ok () := by
  induction e with
  | absent => simp [Expr.parts]
  | ref name => simpa [Expr.parts] using h
  | literal v t => simpa [Expr.parts] using h
  | leaf l => simpa [Expr.parts] using h
  | mux s a b ihs iha ihb =>
    obtain ⟨hsa, hb⟩ := visitAll_append_ok.mp (node_visit_ok rfl h)
    obtain ⟨hs, ha⟩ := visitAll_append_ok.mp hsa
    simpa [Expr.parts, or_imp, forall_and] using ⟨h, ihs hs, iha ha, ihb hb⟩
  | validIf a b iha ihb | binary op a b iha ihb | compare op a b iha ihb
  | shiftLeft a n b iha ihb | shiftRight a n b iha ihb =>
    obtain ⟨ha, hb⟩ := visitAll_append_ok.mp (node_visit_ok rfl h)
    simpa [Expr.parts, or_imp, forall_and] using ⟨h, iha ha, ihb hb⟩
  | unary op a ih | pad a w ih | bits a hi lo ih | head a n ih | tail a n ih =>
    simpa [Expr.parts] using ⟨h, ih (node_visit_ok rfl h)⟩

theorem Draft.within_of_checkExpr {d : Draft} {field : String} {e : Expr}
    (h : d.checkExpr field e = .ok ()) : e.Within d.args := by
  unfold Draft.checkExpr at h
  split_ifs at h with hp
  refine ⟨hp, fun l hl => Draft.admits_leaf (Draft.visit_part h _ hl), fun v t ht => ?_⟩
  exact native_of_visit t (node_visit_ok rfl (Draft.visit_part h _ ht))

/-! Guards -/

/-- The conjunction of expressions, in the order in which they are given. -/
def conjoin (es : List Expr) : Option Expr :=
  es.foldl (fun g e => some (match g with | some g => .and g e | none => e)) none

theorem conjoin_concat (es : List Expr) (e : Expr) :
    conjoin (es ++ [e]) = some (match conjoin es with | some g => .and g e | none => e) := by
  rw [conjoin, List.foldl_append]
  rfl

theorem conjoin_within {args : List Argument} {es : List Expr} {g : Expr}
    (h : ∀ e ∈ es, e.Within args) (hg : conjoin es = some g) : g.Within args := by
  induction es using List.reverseRecOn generalizing g with
  | nil => cases hg
  | append_singleton es e ih =>
    rw [conjoin_concat] at hg
    have he := h e (by simp)
    cases hes : conjoin es with
    | none =>
      rw [hes] at hg
      cases hg
      exact he
    | some g' =>
      rw [hes] at hg
      cases hg
      exact (ih (fun e' he' => h e' (by simp [he'])) hes).and he

/-! Calls on a draft -/

inductive DraftCall where
  | guard (e : Expr)
  | update (target : Option State) (value : Expr)
  | display (format : Text.Bytes) (args : List Expr)
  | stop (exitCode : Int64)
  | argument (name : String)
  | result (e : Expr)
  | build
  | buildRule

def DraftCall.work : DraftCall → Drafting Unit
  | .guard e => Draft.addGuard e
  | .update target value => Draft.addUpdate target value
  | .display format args => Draft.addDisplay format args
  | .stop exitCode => Draft.addFinish exitCode
  | .argument name => do let _ ← Draft.argument name
  | .result e => Draft.setResult e
  | .build => do let _ ← Draft.finish
  | .buildRule => do let _ ← Draft.finishRule

/-- What a call that fails leaves: the same draft, possibly with an error on record. -/
def Draft.Keeps (d d' : Draft) : Prop := d' = { d with built := d'.built, error := d'.error }

theorem Draft.Keeps.refl (d : Draft) : d.Keeps d := rfl

/-- All that a call can do to a draft. -/
inductive Draft.Step (d : Draft) : DraftCall → Except Error Unit → Draft → Prop
  | kept {call : DraftCall} {r : Except Error Unit} {d' : Draft} (hkeeps : d.Keeps d')
      (hguard : ∀ e, call = .guard e → r ≠ .ok ()) (hresult : ∀ e, call = .result e → r ≠ .ok ()) :
      Step d call r d'
  | guarded {e : Expr} (he : e.Within d.args) :
      Step d (.guard e) (.ok ())
        { d with guard := some (match d.guard with | some g => .and g e | none => e) }
  | updated {s : State} {v : Expr} (hrole : ∀ type result, d.role ≠ .value type result)
      (hfresh : s ∉ d.updates.map Update.target) (hv : v.Within d.args) :
      Step d (.update (some s) v) (.ok ()) { d with updates := d.updates ++ [⟨s, v⟩] }
  | displayed {format : Text.Bytes} {args : List Expr} (hargs : ∀ e ∈ args, e.Within d.args) :
      Step d (.display format args) (.ok ()) { d with body := d.body ++ [.display format args] }
  | stopped {exitCode : Int64} :
      Step d (.stop exitCode) (.ok ()) { d with body := d.body ++ [.finish exitCode] }
  | returned {type : Ty} {e : Expr} (hrole : d.role = .value type none)
      (he : e.Within d.args) :
      Step d (.result e) (.ok ()) { d with role := .value type (some e) }

/-- A part that fails ends the whole, with what it has changed so far. -/
theorem run_bind_cases {σ α β : Type} {x : ExceptT Error (StateM σ) α}
    {f : α → ExceptT Error (StateM σ) β} {s s' : σ} {r : Except Error β}
    (h : (x >>= f).run.run s = (r, s')) :
    (∃ e, x.run.run s = (.error e, s') ∧ r = .error e) ∨
    ∃ a mid, x.run.run s = (.ok a, mid) ∧ (f a).run.run mid = (r, s') := by
  have hbind : (x >>= f).run.run s = match x.run.run s with
      | (.ok a, mid) => (f a).run.run mid
      | (.error e, mid) => (.error e, mid) := by
    change (ExceptT.bindCont f (x.run.run s).1).run (x.run.run s).2 = _
    rcases x.run.run s with ⟨e | a, mid⟩ <;> rfl
  rw [hbind] at h
  rcases hx : x.run.run s with ⟨e | a, mid⟩ <;> rw [hx] at h
  · cases h
    exact .inl ⟨e, rfl, rfl⟩
  · exact .inr ⟨a, mid, rfl, h⟩

/-- What a part does to the state does not depend on whether its result is used. -/
theorem run_ignoring {σ α : Type} {x : ExceptT Error (StateM σ) α} {s s' : σ} {r : Except Error Unit}
    (h : (do let _ ← x : ExceptT Error (StateM σ) Unit).run.run s = (r, s')) :
    ∃ r', x.run.run s = (r', s') := by
  rcases run_bind_cases h with ⟨e, he, -⟩ | ⟨a, mid, ha, hrest⟩
  · exact ⟨_, he⟩
  · cases hrest
    exact ⟨_, ha⟩

theorem run_getThe_bind {σ β : Type} (f : σ → ExceptT Error (StateM σ) β) (s : σ) :
    ((getThe σ : ExceptT Error (StateM σ) σ) >>= f).run.run s = (f s).run.run s := rfl

/-- Goes on with the draft as it is and only if `P` holds of it; fails otherwise. -/
def Drafting.Checks (x : Drafting Unit) (P : Draft → Prop) : Prop :=
  ∀ d r d', x.run.run d = (r, d') → (r = .ok () ∧ d' = d ∧ P d) ∨ ((∃ e, r = .error e) ∧ d.Keeps d')

theorem Drafting.Checks.bind_cases {x : Drafting Unit} {P : Draft → Prop} (hx : Checks x P) {β : Type}
    {f : Unit → Drafting β} {d d' : Draft} {r : Except Error β} (h : (x >>= f).run.run d = (r, d')) :
    ((∃ e, r = .error e) ∧ d.Keeps d') ∨ P d ∧ (f ()).run.run d = (r, d') := by
  rcases run_bind_cases h with ⟨e, he, rfl⟩ | ⟨⟨⟩, mid, hmid, hrest⟩
  · rcases hx d _ d' he with ⟨hok, -⟩ | ⟨-, hkeeps⟩
    · cases hok
    · exact .inl ⟨⟨e, rfl⟩, hkeeps⟩
  · rcases hx d _ mid hmid with ⟨-, rfl, hP⟩ | ⟨⟨e, he⟩, -⟩
    · exact .inr ⟨hP, hrest⟩
    · cases he

namespace Draft

theorem Keeps.recordError (d : Draft) (e : Error) : d.Keeps (d.recordError e) := rfl

theorem checks_requireOpen (field : String) : Drafting.Checks (requireOpen field) fun _ => True := by
  intro d r d' h
  rw [requireOpen, run_getThe_bind] at h
  split_ifs at h
  · cases h
    exact .inr ⟨⟨_, rfl⟩, .refl d⟩
  · cases h
    exact .inl ⟨rfl, rfl, trivial⟩

theorem checks_requireRule :
    Drafting.Checks requireRule fun d => ∀ type result, d.role ≠ .value type result := by
  intro d r d' h
  rw [requireRule, run_getThe_bind] at h
  split at h
  · cases h
    exact .inr ⟨⟨_, rfl⟩, .refl d⟩
  · rename_i hrole
    cases h
    exact .inl ⟨rfl, rfl, hrole⟩

theorem checks_requireExpr (field : String) (e : Expr) :
    Drafting.Checks (requireExpr field e) fun d => e.Within d.args := by
  intro d r d' h
  rw [requireExpr, run_getThe_bind] at h
  split at h
  · cases h
    exact .inl ⟨rfl, rfl, within_of_checkExpr ‹_›⟩
  · cases h
    exact .inr ⟨⟨_, rfl⟩, .recordError d _⟩

theorem checks_requireExprs (field : String) (es : List Expr) :
    Drafting.Checks (requireExprs field es) fun d => ∀ e ∈ es, e.Within d.args := by
  induction es with
  | nil =>
    intro d r d' h
    cases h
    exact .inl ⟨rfl, rfl, List.forall_mem_nil _⟩
  | cons e es ih =>
    intro d r d' h
    rcases (checks_requireExpr field e).bind_cases h with hfail | ⟨he, hrest⟩
    · exact .inr hfail
    · rcases ih d r d' hrest with ⟨hr, hd, hes⟩ | hfail
      · exact .inl ⟨hr, hd, List.forall_mem_cons.mpr ⟨he, hes⟩⟩
      · exact .inr hfail

theorem Step.failed {d d' : Draft} {call : DraftCall} {r : Except Error Unit}
    (h : (∃ e, r = .error e) ∧ d.Keeps d') : d.Step call r d' := by
  obtain ⟨⟨e, rfl⟩, hkeeps⟩ := h
  exact .kept hkeeps (fun _ _ hr => by cases hr) fun _ _ hr => by cases hr

theorem addGuard_step {d d' : Draft} {e : Expr} {r : Except Error Unit}
    (h : (addGuard e).run.run d = (r, d')) : d.Step (.guard e) r d' := by
  rcases (checks_requireOpen _).bind_cases h with hfail | ⟨-, h⟩
  · exact .failed hfail
  rcases (checks_requireExpr _ _).bind_cases h with hfail | ⟨he, h⟩
  · exact .failed hfail
  cases h
  exact .guarded he

theorem addUpdate_step {d d' : Draft} {target : Option State} {value : Expr} {r : Except Error Unit}
    (h : (addUpdate target value).run.run d = (r, d')) : d.Step (.update target value) r d' := by
  rcases checks_requireRule.bind_cases h with hfail | ⟨hrole, h⟩
  · exact .failed hfail
  rcases (checks_requireOpen _).bind_cases h with hfail | ⟨-, h⟩
  · exact .failed hfail
  rw [run_getThe_bind] at h
  split at h
  · cases h
    exact .failed ⟨⟨_, rfl⟩, .recordError d _⟩
  split_ifs at h with hmem
  · cases h
    exact .failed ⟨⟨_, rfl⟩, .recordError d _⟩
  rcases (checks_requireExpr _ _).bind_cases h with hfail | ⟨hv, h⟩
  · exact .failed hfail
  cases h
  exact .updated hrole hmem hv

theorem addDisplay_step {d d' : Draft} {format : Text.Bytes} {args : List Expr} {r : Except Error Unit}
    (h : (addDisplay format args).run.run d = (r, d')) : d.Step (.display format args) r d' := by
  rcases (checks_requireOpen _).bind_cases h with hfail | ⟨-, h⟩
  · exact .failed hfail
  rcases (checks_requireExprs _ _).bind_cases h with hfail | ⟨hargs, h⟩
  · exact .failed hfail
  cases h
  exact .displayed hargs

theorem addFinish_step {d d' : Draft} {exitCode : Int64} {r : Except Error Unit}
    (h : (addFinish exitCode).run.run d = (r, d')) : d.Step (.stop exitCode) r d' := by
  rcases checks_requireRule.bind_cases h with hfail | ⟨-, h⟩
  · exact .failed hfail
  rcases (checks_requireOpen _).bind_cases h with hfail | ⟨-, h⟩
  · exact .failed hfail
  cases h
  exact .stopped

theorem setResult_step {d d' : Draft} {e : Expr} {r : Except Error Unit}
    (h : (setResult e).run.run d = (r, d')) : d.Step (.result e) r d' := by
  rcases (checks_requireOpen _).bind_cases h with hfail | ⟨-, h⟩
  · exact .failed hfail
  rw [run_getThe_bind] at h
  split at h
  · rename_i type hrole
    rcases (checks_requireExpr _ _).bind_cases h with hfail | ⟨he, h⟩
    · exact .failed hfail
    cases h
    exact .returned hrole he
  · cases h
    exact .failed ⟨⟨_, rfl⟩, .recordError d _⟩
  · cases h
    exact .failed ⟨⟨_, rfl⟩, .refl d⟩

theorem argument_keeps {d d' : Draft} {name : String} {r : Except Error Leaf}
    (h : (argument name).run.run d = (r, d')) : d.Keeps d' := by
  rw [argument, run_getThe_bind] at h
  split at h
  · cases h
    exact .refl d
  · cases h
    exact .recordError d _

theorem freeze_keeps {d d' : Draft} {r : Except Error Construct} (h : freeze.run.run d = (r, d')) :
    d.Keeps d' := by
  rw [freeze, run_getThe_bind] at h
  split_ifs at h
  · cases h
    exact .refl d
  · split at h
    · cases h
      exact .refl d
    · split at h
      · cases h
        rfl
      · cases h
        exact .recordError d _

theorem finish_keeps {d d' : Draft} {r : Except Error Construct} (h : finish.run.run d = (r, d')) :
    d.Keeps d' := by
  rw [finish, run_getThe_bind] at h
  split at h
  · split_ifs at h
    · exact freeze_keeps (d := d.recordError _) h
    · exact freeze_keeps h
  · exact freeze_keeps h

theorem finishRule_keeps {d d' : Draft} {r : Except Error Construct}
    (h : finishRule.run.run d = (r, d')) : d.Keeps d' := by
  rw [finishRule, run_getThe_bind] at h
  split at h
  · exact freeze_keeps h
  · cases h
    exact .refl d

theorem work_step {d d' : Draft} {call : DraftCall} {r : Except Error Unit}
    (h : call.work.run.run d = (r, d')) : d.Step call r d' := by
  cases call with
  | guard e => exact addGuard_step h
  | update target value => exact addUpdate_step h
  | display format args => exact addDisplay_step h
  | stop exitCode => exact addFinish_step h
  | argument name =>
    obtain ⟨r', h⟩ := run_ignoring h
    exact .kept (argument_keeps h) (fun _ hcall => by cases hcall) fun _ hcall => by cases hcall
  | result e => exact setResult_step h
  | build =>
    obtain ⟨r', h⟩ := run_ignoring h
    exact .kept (finish_keeps h) (fun _ hcall => by cases hcall) fun _ hcall => by cases hcall
  | buildRule =>
    obtain ⟨r', h⟩ := run_ignoring h
    exact .kept (finishRule_keeps h) (fun _ hcall => by cases hcall) fun _ hcall => by cases hcall

/-- The draft is what its accepted calls have made of it, and its expressions are its own. -/
structure Coherent (d : Draft) (given : List Expr) : Prop where
  guard : d.guard = conjoin given
  given : ∀ e ∈ given, e.Within d.args
  updates : ∀ u ∈ d.updates, u.value.Within d.args
  displays : ∀ format args, .display format args ∈ d.body → ∀ e ∈ args, e.Within d.args
  result : ∀ type e, d.role = .value type (some e) → e.Within d.args

end Draft

/-- The conjunct that a call with the given outcome has added. -/
def DraftCall.conjuncts : DraftCall → Except Error Unit → List Expr
  | .guard e, .ok () => [e]
  | _, _ => []

theorem DraftCall.conjuncts_error (call : DraftCall) (e : Error) : call.conjuncts (.error e) = [] := by
  cases call <;> rfl

namespace Draft

theorem Step.name_eq {d d' : Draft} {call : DraftCall} {r : Except Error Unit} (h : d.Step call r d') :
    d'.name = d.name := by
  cases h with
  | kept hkeeps _ _ => rw [hkeeps]
  | _ => rfl

theorem Step.coherent {d d' : Draft} {call : DraftCall} {r : Except Error Unit} {given : List Expr}
    (h : d.Step call r d') (hd : d.Coherent given) : d'.Coherent (given ++ call.conjuncts r) := by
  cases h with
  | kept hkeeps hguard _ =>
    have hnone : call.conjuncts r = [] := by
      cases call with
      | guard e =>
        cases r with
        | ok u => exact absurd rfl (hguard e rfl)
        | error e' => rfl
      | _ => rfl
    rw [hnone, List.append_nil, hkeeps]
    exact ⟨hd.guard, hd.given, hd.updates, hd.displays, hd.result⟩
  | guarded he =>
    refine ⟨?_, ?_, hd.updates, hd.displays, hd.result⟩
    · rw [DraftCall.conjuncts, conjoin_concat, hd.guard]
    · exact List.forall_mem_append.mpr ⟨hd.given, List.forall_mem_singleton.mpr he⟩
  | updated _ _ hv =>
    simp only [DraftCall.conjuncts, List.append_nil]
    refine ⟨hd.guard, hd.given, ?_, hd.displays, hd.result⟩
    exact List.forall_mem_append.mpr ⟨hd.updates, List.forall_mem_singleton.mpr hv⟩
  | displayed hargs =>
    simp only [DraftCall.conjuncts, List.append_nil]
    refine ⟨hd.guard, hd.given, hd.updates, ?_, hd.result⟩
    intro format args hmem
    rcases List.mem_append.mp hmem with hold | hnew
    · exact hd.displays format args hold
    · cases List.mem_singleton.mp hnew
      exact hargs
  | stopped =>
    simp only [DraftCall.conjuncts, List.append_nil]
    refine ⟨hd.guard, hd.given, hd.updates, ?_, hd.result⟩
    intro format args hmem
    rcases List.mem_append.mp hmem with hold | hnew
    · exact hd.displays format args hold
    · cases List.mem_singleton.mp hnew
  | returned hrole he =>
    have hargs : d.args = [] := by simp [args, hrole]
    simp only [DraftCall.conjuncts, List.append_nil]
    obtain ⟨hguard, hgiven, hupdates, hdisplays, -⟩ := hd
    rw [hargs] at hgiven hupdates hdisplays he
    refine ⟨hguard, hgiven, hupdates, hdisplays, ?_⟩
    intro type' e' hresult
    cases hresult
    exact he

end Draft

end GuardedRtl
