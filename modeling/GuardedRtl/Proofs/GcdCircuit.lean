import GuardedRtl.Gcd
import GuardedRtl.Proofs.Admission

/-! The circuit of Euclid's algorithm. The design is described by calls to a builder: `design_eq`
says which design that is, for operands of any width, and `elaborate_plan` that it has a circuit. -/

namespace GuardedRtl

open Rtl

/-- A part that succeeds is followed by the rest. -/
theorem run_bind_of {σ α β : Type} {p : ExceptT Error (StateM σ) α}
    {f : α → ExceptT Error (StateM σ) β} {s : σ} {r : Except Error β × σ} (a : α) (mid : σ)
    (h : p.run.run s = (.ok a, mid)) (hrest : (f a).run.run mid = r) : (p >>= f).run.run s = r := by
  simp only [ExceptT.run_bind, StateT.run_bind, h]
  exact hrest

/-- An open draft of an action may give its own arguments as new values. -/
theorem Draft.addUpdate_argument {d : Draft} {args : List Argument} {s : State} {a : Argument}
    (hrole : d.role = .action args) (hopen : d.built = false) (hs : s ∉ d.updates.map Update.target)
    (ha : a ∈ args) :
    (Draft.addUpdate (some s) (.leaf (.argument a))).run.run d =
      (.ok (), { d with updates := d.updates ++ [⟨s, .leaf (.argument a)⟩] }) := by
  have hrule : requireRule.run.run d = (.ok (), d) := by
    rw [requireRule, run_getThe_bind, hrole]
    rfl
  have hopen' : (requireOpen "update").run.run d = (.ok (), d) := by
    rw [requireOpen, run_getThe_bind, hopen]
    rfl
  have hadmits : d.admits "value" (.expr (.leaf (.argument a))) = .ok false := by
    rw [admits, Draft.args, hrole, if_pos ha]
  have hcheck : d.checkExpr "value" (.leaf (.argument a)) = .ok () :=
    visitAll_cons_ok.mpr ⟨visit_node_ok.mpr (.inl hadmits), visitAll_nil_ok⟩
  have hexpr : (requireExpr "value" (.leaf (.argument a))).run.run d = (.ok (), d) := by
    rw [requireExpr, run_getThe_bind, hcheck]
    rfl
  refine run_bind_of () d hrule (run_bind_of () d hopen' ?_)
  rw [run_getThe_bind]
  simp only [if_neg hs]
  exact run_bind_of () d hexpr rfl

theorem Builder.edit_ok {α : Type} {b : Builder} {name : String} {d d' : Draft} {work : Drafting α}
    {r : α} (hd : b.draft? name = some d) (hwork : work.run.run d = (.ok r, d')) :
    (Builder.edit name work).run.run b = (.ok r, b.replaceDraft d') := by
  rw [edit, run_getThe_bind, hd]
  simp only [hwork]
  rfl

theorem tryCatch_ok {σ : Type} {p : ExceptT Error (StateM σ) Unit}
    {handler : Error → ExceptT Error (StateM σ) Unit} {s s' : σ} (h : p.run.run s = (.ok (), s')) :
    (tryCatch p handler).run.run s = (.ok (), s') := by
  rw [ExceptT.run_tryCatch, StateT.run_bind, h]
  rfl

namespace Gcd

def operand (name : String) (width : Int64) : Argument := ⟨0, "start", name, .uint width⟩

section

variable (width : Int64)

def first : Expr := .leaf (.state (x width))

def second : Expr := .leaf (.state (y width))

def difference : Expr := .tail (.sub (second width) (first width)) 1

def swap : Rule where
  name := "swap"
  guard := .and (.gt (first width) (second width)) (.ne (second width) (zero width))
  body := []
  updates := [⟨x width, second width⟩, ⟨y width, first width⟩]

def subtract : Rule where
  name := "subtract"
  guard := .and (.le (first width) (second width)) (.ne (second width) (zero width))
  body := []
  updates := [⟨y width, difference width⟩]

def start : Rule where
  name := "start"
  guard := .eq (second width) (zero width)
  body := []
  updates := [⟨x width, .leaf (.argument (operand "a" width))⟩,
    ⟨y width, .leaf (.argument (operand "b" width))⟩]

def result : Rule := ⟨"result", .eq (second width) (zero width), [], []⟩

def operands : List Argument := [operand "a" width, operand "b" width]

/-- The design that is described. -/
def plan : Design where
  name := "Gcd"
  state := [x width, y width]
  rules := [swap width, subtract width]
  methods := [
    .action (start width) (operands width),
    .value (result width) (.uint width) (first width)]

/-- The finished draft of a rule or method. -/
def drafted (r : Rule) (role : Role) : Draft where
  name := r.name
  role := role
  guard := some r.guard
  updates := r.updates
  built := true

/-- The drafts of the design, in the order in which they are finished. -/
def drafts : List Draft := [
  drafted (swap width) .rule,
  drafted (subtract width) .rule,
  drafted (start width) (.action (operands width)),
  drafted (result width) (.value (.uint width) (some (first width)))]

/-- The builder with `n` drafts finished. -/
def progress (n : ℕ) (unfinished : List Draft) : Builder where
  id := 0
  name := "Gcd"
  state := [x width, y width]
  drafts := (drafts width).take n ++ unfinished

end

theorem start_drafted (width : Int64) :
    (do
      tryCatch (Draft.addGuard (start width).guard) fun _ => pure ()
      let a ← Draft.argument "a"
      tryCatch (Draft.addUpdate (some (x width)) (.leaf a)) fun _ => pure ()
      let b ← Draft.argument "b"
      tryCatch (Draft.addUpdate (some (y width)) (.leaf b)) fun _ => pure ()
      Draft.finish : Drafting Construct).run.run
        { name := "start", role := .action (operands width) } =
      (.ok (.method (.action (start width) (operands width))),
        drafted (start width) (.action (operands width))) := by
  have ha : operand "a" width ∈ operands width := List.mem_cons_self ..
  have hb : operand "b" width ∈ operands width := List.mem_cons_of_mem _ (List.mem_cons_self ..)
  have hne : y width ∉ [x width] := by simp [x, y]
  refine run_bind_of ()
    { drafted (start width) (.action (operands width)) with updates := [], built := false } rfl ?_
  refine run_bind_of (.argument (operand "a" width)) _ rfl ?_
  refine run_bind_of () _ (tryCatch_ok (Draft.addUpdate_argument rfl rfl List.not_mem_nil ha)) ?_
  refine run_bind_of (.argument (operand "b" width)) _ rfl ?_
  refine run_bind_of () _ (tryCatch_ok (Draft.addUpdate_argument rfl rfl hne hb)) ?_
  rfl

theorem design_eq (width : Int64) : design width = .ok (plan width) := by
  have hdescribe : (describe width).run.run { id := 0, name := "Gcd" } =
      (.ok (plan width), { progress width 4 [] with frozen := true }) := by
    unfold describe
    refine run_bind_of () (progress width 0 []) rfl ?_
    refine run_bind_of () (progress width 0 [{ name := "swap", role := .rule }]) rfl ?_
    refine run_bind_of (.rule (swap width)) (progress width 1 []) rfl ?_
    refine run_bind_of () (progress width 1 [{ name := "subtract", role := .rule }]) rfl ?_
    refine run_bind_of (.rule (subtract width)) (progress width 2 []) rfl ?_
    refine run_bind_of ()
      (progress width 2 [{ name := "start", role := .action (operands width) }]) rfl ?_
    refine run_bind_of _ (progress width 3 []) (Builder.edit_ok rfl (start_drafted width)) ?_
    refine run_bind_of ()
      (progress width 3 [{ name := "result", role := .value (.uint width) none }]) rfl ?_
    refine run_bind_of (.method (.value (result width) (.uint width) (first width)))
      (progress width 4 []) rfl ?_
    rfl
  rw [design, hdescribe]

/-! The expressions of the design -/

/-- What the expressions of a rule or method with the given arguments are made of. -/
inductive Built (width : Int64) (args : List Argument) : Expr → Prop
  | state {s : State} (hs : s ∈ [x width, y width]) : Built width args (.leaf (.state s))
  | argument {a : Argument} (ha : a ∈ args) : Built width args (.leaf (.argument a))
  | zero : Built width args (.literal 0 (.uint width))
  | binary {op : BinaryOp} {a b : Expr} (hop : op.isKnown) (ha : Built width args a)
      (hb : Built width args b) : Built width args (.binary op a b)
  | compare {op : CompareOp} {a b : Expr} (hop : op.isKnown) (ha : Built width args a)
      (hb : Built width args b) : Built width args (.compare op a b)
  | tail {a : Expr} (ha : Built width args a) : Built width args (.tail a 1)

theorem accepted_zero {width : Int64} (h : 0 ≤ width) : (zero width).Accepted := by
  refine (Expr.accepted_literal _ _).mpr ⟨?_, (Ty.accepted_uint h).2⟩
  have hfits : fitsUnsigned 0 width := by
    have hlength : ¬ width.toInt < bitLength (0 : Int64).toUInt64 :=
      Int.not_lt.mpr (Int64.le_iff_toInt_le.mp h)
    simp only [fitsUnsigned, decide_eq_false hlength, Bool.and_false, Bool.not_false]
  rw [checkLiteral, if_neg (by decide), if_pos hfits]

namespace Built

variable {width : Int64} {args : List Argument} {e : Expr}

theorem part (h : Built width args e) : ∀ p ∈ e.parts, Built width args p := by
  induction h with
  | state hs => exact List.forall_mem_singleton.mpr (.state hs)
  | argument ha => exact List.forall_mem_singleton.mpr (.argument ha)
  | zero => exact List.forall_mem_singleton.mpr .zero
  | binary hop ha hb iha ihb =>
    exact List.forall_mem_cons.mpr ⟨.binary hop ha hb, List.forall_mem_append.mpr ⟨iha, ihb⟩⟩
  | compare hop ha hb iha ihb =>
    exact List.forall_mem_cons.mpr ⟨.compare hop ha hb, List.forall_mem_append.mpr ⟨iha, ihb⟩⟩
  | tail ha ih => exact List.forall_mem_cons.mpr ⟨.tail ha, ih⟩

theorem present (h : Built width args e) : e.isPresent := by
  cases h <;> rfl

theorem within (h : Built width args e) : e.Within args where
  present := h.present
  leaves := by
    intro l hl
    cases h.part _ hl with
    | state hs => trivial
    | argument ha => exact ha
  literals := by
    intro v t hvt
    cases h.part _ hvt
    trivial

theorem refs_eq (h : Built width args e) : e.refs = [] := by
  rw [Expr.refs_eq_nil_iff]
  rintro p hp name rfl
  cases h.part _ hp

theorem modestShifts (h : Built width args e) : e.ModestShifts := by
  intro a n hmem
  cases h.part _ hmem

theorem mem_state (h : Built width args e) {s : State} (hs : .leaf (.state s) ∈ e.parts) :
    s ∈ [x width, y width] := by
  cases h.part _ hs
  assumption

theorem accepted {names : StateNames} (h : Built width args e) (hwidth : 0 ≤ width)
    (hstates : ∀ s ∈ [x width, y width], names.get s ≠ "") : (renamed names e).Accepted := by
  induction h with
  | state hs => exact Expr.accepted_ref (hstates _ hs)
  | @argument a ha => exact Expr.accepted_ref (joined_ne a.method a.name)
  | zero => exact accepted_zero hwidth
  | binary hop ha hb iha ihb =>
    refine (Expr.accepted_binary _ _ _).mpr ⟨⟨hop, ?_, ?_⟩, iha, ihb⟩
    · rw [isPresent_renamed]
      exact ha.present
    · rw [isPresent_renamed]
      exact hb.present
  | compare hop ha hb iha ihb =>
    refine (Expr.accepted_compare _ _ _).mpr ⟨⟨hop, ?_, ?_⟩, iha, ihb⟩
    · rw [isPresent_renamed]
      exact ha.present
    · rw [isPresent_renamed]
      exact hb.present
  | tail ha ih =>
    refine (Expr.accepted_tail _ _).mpr ⟨⟨?_, by decide⟩, ih⟩
    rw [isPresent_renamed]
    exact ha.present

end Built

section

variable {width : Int64}

theorem constructs_plan : (plan width).constructs = [.rule (swap width), .rule (subtract width),
    .method (.action (start width) (operands width)),
    .method (.value (result width) (.uint width) (first width))] := rfl

theorem mem_constructs_plan {c : Construct} : c ∈ (plan width).constructs ↔
    c = .rule (swap width) ∨ c = .rule (subtract width) ∨
      c = .method (.action (start width) (operands width)) ∨
      c = .method (.value (result width) (.uint width) (first width)) := by
  simp only [constructs_plan, List.mem_cons, List.not_mem_nil, or_false]

theorem built_first (args : List Argument) : Built width args (first width) :=
  .state (List.mem_cons_self ..)

theorem built_second (args : List Argument) : Built width args (second width) :=
  .state (List.mem_cons_of_mem _ (List.mem_cons_self ..))

theorem built_busy (args : List Argument) : Built width args (.ne (second width) (zero width)) :=
  .compare rfl (built_second args) .zero

theorem built_idle (args : List Argument) : Built width args (.eq (second width) (zero width)) :=
  .compare rfl (built_second args) .zero

theorem built_plan {c : Construct} (hc : c ∈ (plan width).constructs) :
    ∀ e ∈ c.expressions, Built width c.args e := by
  have hfirst := @built_first width
  have hsecond := @built_second width
  rcases mem_constructs_plan.mp hc with rfl | rfl | rfl | rfl
  · change ∀ e ∈ [(swap width).guard, first width, second width, second width, first width], _
    simp only [List.forall_mem_cons]
    exact ⟨.binary rfl (.compare rfl (hfirst _) (hsecond _)) (built_busy _), hfirst _, hsecond _,
      hsecond _, hfirst _, List.forall_mem_nil _⟩
  · change ∀ e ∈ [(subtract width).guard, second width, difference width], _
    simp only [List.forall_mem_cons]
    exact ⟨.binary rfl (.compare rfl (hfirst _) (hsecond _)) (built_busy _), hsecond _,
      .tail (.binary rfl (hsecond _) (hfirst _)), List.forall_mem_nil _⟩
  · change ∀ e ∈ [(start width).guard, first width, .leaf (.argument (operand "a" width)),
      second width, .leaf (.argument (operand "b" width))], _
    simp only [List.forall_mem_cons]
    exact ⟨built_idle _, hfirst _, .argument (List.mem_cons_self ..), hsecond _,
      .argument (List.mem_cons_of_mem _ (List.mem_cons_self ..)), List.forall_mem_nil _⟩
  · change ∀ e ∈ [(result width).guard, first width], _
    simp only [List.forall_mem_cons]
    exact ⟨built_idle _, hfirst _, List.forall_mem_nil _⟩

/-! The circuit of the design -/

variable (width) in
/-- The names of the registers. -/
def labels : StateNames := [(x width, "Gcd_x"), (y width, "Gcd_y")]

theorem x_ne_y : x width ≠ y width := by
  simp [x, y]

theorem mentions_plan (s : State) : (plan width).Mentions s ↔ s ∈ [x width, y width] := by
  constructor
  · rintro (hs | ⟨c, hc, e, he, hs⟩)
    · exact hs
    · exact (built_plan hc e he).mem_state hs
  · exact .inl

/-- The names of the inputs and of the signals. -/
def reserved : Names where
  taken := ["result_value", "result_ready", "result_firing", "result_can_fire", "start_ready",
    "start_b", "start_a", "start_enable", "start_firing", "start_can_fire", "subtract_firing",
    "subtract_can_fire", "swap_firing", "swap_can_fire", "clk", "reset"]

theorem reserved_plan : (plan width).reserved = .ok reserved := by rfl

theorem wantedName_x : wantedName "Gcd" (x width) = "Gcd_x" := by rfl

theorem wantedName_y : wantedName "Gcd" (y width) = "Gcd_y" := by rfl

/-- The registers are named in the order in which they are found. -/
theorem stateNames_plan :
    ∃ names, (plan width).stateNames = .ok names ∧ names.Perm (labels width) := by
  obtain ⟨found, hfound⟩ := Design.discover_exists fun c hc e he =>
    (@built_plan width c hc e he).within.lowerable
  obtain ⟨hnodup, hmem⟩ := Design.discover_ok hfound
  have hperm : found.Perm [x width, y width] := by
    refine (List.perm_ext_iff_of_nodup hnodup (by simp [x_ne_y])).mpr fun s => ?_
    rw [hmem, mentions_plan]
  have hwanted : nameState "Gcd" reserved found = found.map fun s => (s, wantedName "Gcd" s) := by
    refine nameState_wanted (fun s hs => ?_) ((hperm.map _).nodup_iff.mpr ?_)
    · rw [hperm.mem_iff, List.mem_pair] at hs
      rcases hs with rfl | rfl
      · rw [wantedName_x]
        decide
      · rw [wantedName_y]
        decide
    · rw [List.map_cons, List.map_singleton, wantedName_x, wantedName_y]
      decide
  refine ⟨nameState "Gcd" reserved found, ?_, ?_⟩
  · rw [Design.stateNames, reserved_plan, hfound]
    rfl
  · rw [hwanted]
    exact hperm.map _

section

variable {names : StateNames} (hnames : names.Perm (labels width))

include hnames

theorem mem_names {n : State × String} :
    n ∈ names ↔ n = (x width, "Gcd_x") ∨ n = (y width, "Gcd_y") := by
  rw [hnames.mem_iff, labels, List.mem_pair]

theorem registers_names : ∀ n ∈ names, ∃ reset, n.1.storage = .register reset := by
  intro n hn
  rcases (mem_names hnames).mp hn with rfl | rfl
  · exact ⟨none, rfl⟩
  · exact ⟨some 0, rfl⟩

theorem native_names : names.Native := by
  intro n hn
  obtain ⟨reset, hreset⟩ := registers_names hnames n hn
  rw [hreset]
  trivial

theorem states_nodup : (names.map Prod.fst).Nodup :=
  (hnames.map _).nodup_iff.mpr (by simp [labels, x_ne_y])

theorem get_x : names.get (x width) = "Gcd_x" :=
  StateNames.get_of_mem (states_nodup hnames) ((mem_names hnames).mpr (.inl rfl))

theorem get_y : names.get (y width) = "Gcd_y" :=
  StateNames.get_of_mem (states_nodup hnames) ((mem_names hnames).mpr (.inr rfl))

theorem naming_plan : (plan width).Naming names where
  native := native_names hnames
  states := states_nodup hnames
  mentioned := by
    intro s
    rw [mentions_plan, (hnames.map Prod.fst).mem_iff]
    rfl
  distinct := by
    have hperm : ((plan width).inputs ++ (plan width).targets names).Perm
        ((plan width).inputs ++ (plan width).targets (labels width)) :=
      ((hnames.map Prod.snd).append_left _).append_left _
    refine hperm.nodup_iff.mpr ?_
    change List.Nodup ["clk", "reset", "start_enable", "start_a", "start_b", "swap_can_fire",
      "swap_firing", "subtract_can_fire", "subtract_firing", "start_can_fire", "start_firing",
      "start_ready", "result_can_fire", "result_firing", "result_ready", "result_value", "Gcd_x",
      "Gcd_y"]
    decide

theorem admissible_plan (hwidth : 0 ≤ width) : (plan width).Admissible names where
  name := (by decide : "Gcd" ≠ "")
  native := native_names hnames
  states := by
    intro n hn
    rcases (mem_names hnames).mp hn with rfl | rfl
    · exact ⟨(by decide : "Gcd_x" ≠ ""), Ty.accepted_uint hwidth⟩
    · exact ⟨(by decide : "Gcd_y" ≠ ""), Ty.accepted_uint hwidth⟩
  resets := by
    intro n hn v hv
    rcases (mem_names hnames).mp hn with rfl | rfl
    · cases hv
    · cases hv
      exact accepted_zero hwidth
  ports := by
    intro c hc p hp
    rcases mem_constructs_plan.mp hc with rfl | rfl | rfl | rfl
    · cases hp
    · cases hp
    · simp only [Construct.ports, operands, List.map_cons, List.map_nil, List.cons_append,
        List.nil_append, List.mem_cons, List.not_mem_nil, or_false] at hp
      rcases hp with rfl | rfl | rfl | rfl
      · exact Ty.accepted_bit
      · exact Ty.accepted_uint hwidth
      · exact Ty.accepted_uint hwidth
      · exact Ty.accepted_bit
    · simp only [Construct.ports, List.mem_cons, List.not_mem_nil, or_false] at hp
      rcases hp with rfl | rfl
      · exact Ty.accepted_bit
      · exact Ty.accepted_uint hwidth
  expressions := by
    intro c hc e he
    have hbuilt := built_plan hc e he
    refine ⟨hbuilt.present, hbuilt.accepted hwidth fun s hs => ?_⟩
    rw [List.mem_pair] at hs
    rcases hs with rfl | rfl
    · rw [get_x hnames]
      decide
    · rw [get_y hnames]
      decide

theorem elaborate_plan (hwidth : 0 ≤ width) (hnames' : (plan width).stateNames = .ok names) :
    (plan width).elaborate = .ok ⟨"Gcd", [(plan width).elaborated names]⟩ :=
  Design.elaborate_eq hnames' (fun _ hc e he => (built_plan hc e he).within)
    (admissible_plan hnames hwidth)

end

theorem circuit_eq (hwidth : 0 ≤ width) :
    ∃ names, circuit width = .ok ⟨"Gcd", [(plan width).elaborated names]⟩ ∧
      names.Perm (labels width) := by
  obtain ⟨names, hstate, hnames⟩ := @stateNames_plan width
  refine ⟨names, ?_, hnames⟩
  simp only [circuit, design_eq, bind, Except.bind, elaborate_plan hnames hwidth hstate]

end

end Gcd

end GuardedRtl
