import GuardedRtl.Design.Elaborate
import GuardedRtl.Proofs.Check
import GuardedRtl.Proofs.Decimals
import GuardedRtl.Proofs.Reference

/-! The names of a circuit. A fresh name is not taken, whatever it is made of, so the names that are
reserved and the names given to state elements never meet; and the state elements that get a name are
those that the design declares or mentions, each once. -/

namespace GuardedRtl

open Rtl

namespace Names

theorem numbered_injective (base : String) : Function.Injective (numbered base) := by
  intro m n h
  exact Text.repr_injective ((String.append_right_inj _).mp h)

/-- One of the first numbers is free, since there are more of them than names taken. -/
theorem exists_free (ns : Names) (base : String) :
    ∃ n ∈ List.range (ns.taken.length + 1), numbered base n ∉ ns.taken := by
  by_contra! hall
  have hsub : (List.range (ns.taken.length + 1)).map (numbered base) ⊆ ns.taken := by
    intro x hx
    obtain ⟨n, hn, rfl⟩ := List.mem_map.mp hx
    exact hall n hn
  have hnodup : ((List.range (ns.taken.length + 1)).map (numbered base)).Nodup :=
    List.nodup_range.map (numbered_injective base)
  have hlen := (hnodup.subperm hsub).length_le
  rw [List.length_map, List.length_range] at hlen
  omega

/-- The number `n` is the least that is free behind `base`. -/
structure LeastFree (ns : Names) (base : String) (n : ℕ) : Prop where
  free : numbered base n ∉ ns.taken
  below : ∀ m < n, numbered base m ∈ ns.taken

/-- The free name for a taken one has the least free number. -/
theorem freshName_least {ns : Names} {base : String} (h : base ∈ ns.taken) :
    ∃ n, ns.freshName base = numbered base n ∧ ns.LeastFree base n := by
  unfold freshName
  rw [if_pos h]
  cases hfind : (List.range (ns.taken.length + 1)).find? fun n => numbered base n ∉ ns.taken with
  | none =>
    obtain ⟨n, hn, hfree⟩ := exists_free ns base
    exact absurd hfree (by simpa using List.find?_eq_none.mp hfind n hn)
  | some n =>
    obtain ⟨hfree, -, hbelow⟩ := List.find?_range_eq_some.mp hfind
    exact ⟨n, rfl, by simpa using hfree, by simpa using hbelow⟩

theorem freshName_not_mem (ns : Names) (base : String) : ns.freshName base ∉ ns.taken := by
  by_cases h : base ∈ ns.taken
  · obtain ⟨n, hname, hleast⟩ := freshName_least h
    rw [hname]
    exact hleast.free
  · rw [freshName, if_neg h]
    exact h

end Names

/-- Names are reserved only while they are free. -/
theorem reserveAll_ok {design : String} {ns ns' : Names} {ids : List String}
    (h : reserveAll design ns ids = .ok ns') :
    ns'.taken = ids.reverse ++ ns.taken ∧ (ns.taken.Nodup → ns'.taken.Nodup) := by
  induction ids generalizing ns with
  | nil => cases h; exact ⟨rfl, id⟩
  | cons id ids ih =>
    rw [reserveAll, Names.reserve?] at h
    by_cases hid : id ∈ ns.taken
    · rw [if_pos hid] at h
      cases h
    · rw [if_neg hid] at h
      obtain ⟨htaken, hnodup⟩ := ih h
      refine ⟨by simp [htaken], fun hns => hnodup (List.nodup_cons.mpr ⟨hid, hns⟩)⟩

theorem nameState_states (design : String) (ns : Names) (ss : List State) :
    (nameState design ns ss).map Prod.fst = ss := by
  induction ss generalizing ns with
  | nil => rfl
  | cons s ss ih => rw [nameState, List.map_cons, ih]

/-- The names of state elements differ from each other and from all names taken before. -/
theorem nameState_names (design : String) (ns : Names) (ss : List State) :
    ((nameState design ns ss).map Prod.snd).Nodup ∧
    ∀ x ∈ (nameState design ns ss).map Prod.snd, x ∉ ns.taken := by
  induction ss generalizing ns with
  | nil => exact ⟨List.nodup_nil, fun x hx => by cases hx⟩
  | cons s ss ih =>
    rw [nameState, List.map_cons]
    obtain ⟨hnodup, hfree⟩ := ih (ns.fresh (design ++ "_" ++ State.effectiveHint s)).2
    have hfresh := ns.freshName_not_mem (design ++ "_" ++ State.effectiveHint s)
    constructor
    · exact List.nodup_cons.mpr ⟨fun hx => hfree _ hx (List.mem_cons_self ..), hnodup⟩
    · intro x hx
      rcases List.mem_cons.mp hx with rfl | hx
      · exact hfresh
      · exact fun htaken => hfree x hx (List.mem_cons_of_mem _ htaken)

theorem StateNames.get_of_mem {names : StateNames} (hnodup : (names.map Prod.fst).Nodup) {s : State}
    {x : String} (h : (s, x) ∈ names) : names.get s = x := by
  induction names with
  | nil => cases h
  | cons n names ih =>
    obtain ⟨t, y⟩ := n
    rw [List.map_cons, List.nodup_cons] at hnodup
    rcases List.mem_cons.mp h with heq | hmem
    · cases heq
      simp [StateNames.get]
    · have hne : s ≠ t := by
        rintro rfl
        exact hnodup.1 (List.mem_map.mpr ⟨_, hmem, rfl⟩)
      have hget := ih hnodup.2 hmem
      simpa [StateNames.get, List.lookup_cons, beq_eq_false_iff_ne.mpr hne] using hget

/-! Discovery -/

/-- The elements of `found'` are those of `found` and those of which `P` holds, none twice. -/
structure Collects (found found' : List State) (P : State → Prop) : Prop where
  mem : ∀ s, s ∈ found' ↔ s ∈ found ∨ P s
  nodup : found.Nodup → found'.Nodup

/-- If `x` succeeds, it has found the elements of which `P` holds. -/
def Finds (x : Discovery Unit) (P : State → Prop) : Prop :=
  ∀ found found', x.run found = .ok ((), found') → Collects found found' P

theorem Finds.congr {x : Discovery Unit} {P Q : State → Prop} (hx : Finds x P) (h : ∀ s, P s ↔ Q s) :
    Finds x Q := by
  intro found found' hrun
  obtain ⟨hmem, hnodup⟩ := hx found found' hrun
  exact ⟨fun s => by rw [hmem, h], hnodup⟩

theorem finds_pure : Finds (pure ()) fun _ => False := by
  intro found found' h
  cases h
  exact ⟨by simp, id⟩

theorem finds_throw {e : Error} {P : State → Prop} : Finds (throw e) P := by
  intro found found' h
  cases h

theorem Finds.bind {x y : Discovery Unit} {P Q : State → Prop} (hx : Finds x P) (hy : Finds y Q) :
    Finds (do x; y) fun s => P s ∨ Q s := by
  intro found found' h
  rw [StateT.run_bind] at h
  obtain ⟨⟨⟨⟩, mid⟩, hmid, h⟩ := bind_eq_ok.mp h
  obtain ⟨hmem, hnodup⟩ := hx found mid hmid
  obtain ⟨hmem', hnodup'⟩ := hy mid found' h
  exact ⟨fun s => by rw [hmem', hmem, or_assoc], fun hf => hnodup' (hnodup hf)⟩

theorem finds_discoverState (s : State) : Finds (discoverState s) (· = s) := by
  intro found found' h
  have hfound : found' = if s ∈ found then found else found ++ [s] := by
    cases h
    rfl
  rw [hfound]
  split_ifs with hs
  · refine ⟨fun t => ⟨.inl, ?_⟩, id⟩
    rintro (ht | rfl)
    · exact ht
    · exact hs
  · refine ⟨fun t => by rw [List.mem_append, List.mem_singleton], fun hf => ?_⟩
    rw [List.nodup_append]
    refine ⟨hf, List.nodup_singleton s, fun a ha b hb => ?_⟩
    rw [List.mem_singleton.mp hb]
    rintro rfl
    exact hs ha

theorem visitAll_append {m : Type → Type} [Monad m] [LawfulMonad m] [MonadExceptOf Error m]
    (f : Node → m Bool) (ts us : List Tree) :
    Tree.visitAll f (ts ++ us) = (do Tree.visitAll f ts; Tree.visitAll f us) := by
  induction ts with
  | nil => simp [Tree.visitAll]
  | cons t ts ih => simp [Tree.visitAll, ih]

/-- Looking through a node that is no leaf is looking through its children. -/
theorem finds_node {n : Node} {cs : List Tree} {P : State → Prop} (hn : discoverNode n = pure true)
    (hcs : Finds (Tree.visitAll discoverNode cs) P) :
    Finds (Tree.visitAll discoverNode [.node n cs]) P := by
  simp only [Tree.visitAll, Tree.visit, hn, pure_bind, if_true]
  split_ifs
  · exact (hcs.bind finds_pure).congr (by simp)
  · exact (finds_throw.bind finds_pure).congr (P := fun s => P s ∨ False) (by simp)

theorem finds_append {ts us : List Tree} {P Q : State → Prop}
    (ht : Finds (Tree.visitAll discoverNode ts) P) (hu : Finds (Tree.visitAll discoverNode us) Q) :
    Finds (Tree.visitAll discoverNode (ts ++ us)) fun s => P s ∨ Q s := by
  rw [visitAll_append]
  exact ht.bind hu

theorem finds_nil : Finds (Tree.visitAll discoverNode []) fun _ => False :=
  finds_pure

mutual

/-- Types mention no state. -/
theorem finds_type (t : Ty) : Finds (Tree.visitAll discoverNode t.trees) fun _ => False := by
  cases t with
  | absent => exact finds_pure
  | vector elem count => exact finds_node rfl (finds_type elem)
  | bundle fields => exact finds_node rfl (finds_fields fields)
  | uint w => exact finds_node rfl finds_pure
  | sint w => exact finds_node rfl finds_pure
  | clock => exact finds_node rfl finds_pure
  | foreign k => exact finds_node rfl finds_pure
termination_by structural t

theorem finds_fields (fs : List Field) :
    Finds (Tree.visitAll discoverNode (Field.trees fs)) fun _ => False := by
  cases fs with
  | nil => exact finds_pure
  | cons f fs =>
    obtain ⟨name, type⟩ := f
    have hfield : Finds (Tree.visitAll discoverNode [.node (.field ⟨name, type⟩) type.trees])
        fun _ => False := finds_node rfl (finds_type type)
    exact (finds_append hfield (finds_fields fs)).congr (by simp)
termination_by structural fs

end

theorem finds_expr (e : Expr) :
    Finds ((Node.expr e).visit discoverNode) fun s => .leaf (.state s) ∈ e.parts := by
  change Finds (Tree.visitAll discoverNode e.trees) _
  induction e with
  | absent => exact finds_pure.congr (by simp [Expr.parts])
  | ref name => exact (finds_node rfl finds_nil).congr (by simp [Expr.parts])
  | literal v t => exact (finds_node rfl (finds_type t)).congr (by simp [Expr.parts])
  | leaf l =>
    cases l with
    | state s =>
      have hrun : Tree.visitAll discoverNode [.node (.expr (.leaf (.state s))) []] =
          (do discoverState s; pure ()) := by
        simp [Tree.visitAll, Tree.visit, discoverNode]
      rw [Expr.trees, hrun]
      exact ((finds_discoverState s).bind finds_pure).congr (by simp [Expr.parts])
    | argument a =>
      have hrun : Tree.visitAll discoverNode [.node (.expr (.leaf (.argument a))) []] = pure () := by
        simp [Tree.visitAll, Tree.visit, discoverNode]
      rw [Expr.trees, hrun]
      exact finds_pure.congr (by simp [Expr.parts])
    | foreign kind name => exact (finds_node rfl finds_nil).congr (by simp [Expr.parts])
    | unboundArgument => exact (finds_node rfl finds_nil).congr (by simp [Expr.parts])
  | mux s a b ihs iha ihb =>
    exact (finds_node rfl (finds_append (finds_append ihs iha) ihb)).congr
      (by simp [Expr.parts, or_assoc])
  | validIf a b iha ihb | binary op a b iha ihb | compare op a b iha ihb
  | shiftLeft a n b iha ihb | shiftRight a n b iha ihb =>
    exact (finds_node rfl (finds_append iha ihb)).congr (by simp [Expr.parts])
  | unary op a ih | pad a w ih | bits a hi lo ih | head a n ih | tail a n ih =>
    exact (finds_node rfl ih).congr (by simp [Expr.parts])

theorem finds_discoverAll (es : List Expr) :
    Finds (discoverAll es) fun s => ∃ e ∈ es, .leaf (.state s) ∈ e.parts := by
  induction es with
  | nil => exact finds_pure.congr (by simp)
  | cons e es ih => exact ((finds_expr e).bind ih).congr (by simp)

theorem finds_declared (ss : List State) : Finds (ss.forM discoverState) (· ∈ ss) := by
  induction ss with
  | nil => exact finds_pure.congr (by simp)
  | cons s ss ih =>
    exact ((finds_discoverState s).bind ih).congr (by simp)

/-- Whether the design declares the element, or one of its constructs reads or updates it. -/
def Design.Mentions (d : Design) (s : State) : Prop :=
  s ∈ d.state ∨ ∃ c ∈ d.constructs, ∃ e ∈ c.expressions, .leaf (.state s) ∈ e.parts

/-- The state elements of a design are those that it mentions, each once. -/
theorem Design.discover_ok {d : Design} {found : List State} (h : d.discover = .ok found) :
    found.Nodup ∧ ∀ s, s ∈ found ↔ d.Mentions s := by
  obtain ⟨⟨⟨⟩, _⟩, hrun, h⟩ := bind_eq_ok.mp h
  cases h
  obtain ⟨hmem, hnodup⟩ := ((finds_declared d.state).bind
    (finds_discoverAll (d.constructs.flatMap Construct.expressions))) [] found hrun
  refine ⟨hnodup List.nodup_nil, fun s => ?_⟩
  rw [hmem]
  simp only [List.not_mem_nil, false_or, Design.Mentions, List.mem_flatMap]
  constructor
  · rintro (hs | ⟨e, ⟨c, hc, he⟩, hs⟩)
    · exact .inl hs
    · exact .inr ⟨c, hc, e, he, hs⟩
  · rintro (hs | ⟨c, hc, e, he, hs⟩)
    · exact .inl hs
    · exact .inr ⟨e, ⟨c, hc, he⟩, hs⟩

end GuardedRtl
