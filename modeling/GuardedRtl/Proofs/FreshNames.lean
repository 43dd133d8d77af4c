import GuardedRtl.Proofs.Naming

/-! Fresh names throughout a run. The search for a free name tries the numbers one after the other
without a bound; it ends since the names taken are finitely many, and it ends at the least number. Each
call takes one free name or none, so the names granted in a run differ from each other and from those
taken at its beginning, also where a wanted name itself ends in a number. -/

namespace GuardedRtl.Names

/-- The search for a free name. While the candidate is taken, the next one is `base` with the number `i`
behind it. The rules set no bound, so that a derivation is a search that ends. -/
inductive Seeks (ns : Names) (base : String) : ℕ → String → String × Names → Prop
  | found {i : ℕ} {candidate : String} {ns' : Names} (h : ns.reserve? candidate = some ns') :
      Seeks ns base i candidate (candidate, ns')
  | next {i : ℕ} {candidate : String} {r : String × Names} (h : ns.reserve? candidate = none)
      (hrest : Seeks ns base (i + 1) (numbered base i) r) : Seeks ns base i candidate r

section

variable {ns : Names} {base name : String}

theorem reserve?_of_free (h : name ∉ ns.taken) : ns.reserve? name = some ⟨name :: ns.taken⟩ :=
  if_neg h

theorem reserve?_of_taken (h : name ∈ ns.taken) : ns.reserve? name = none :=
  if_pos h

/-- A search has one outcome at most. -/
theorem Seeks.unique {i : ℕ} {candidate : String} {r r' : String × Names}
    (h : Seeks ns base i candidate r) (h' : Seeks ns base i candidate r') : r = r' := by
  induction h with
  | found hfree =>
    cases h' with
    | found hfree' => rw [Option.some.inj (hfree.symm.trans hfree')]
    | next htaken _ => rw [hfree] at htaken; cases htaken
  | next htaken _ ih =>
    cases h' with
    | found hfree => rw [hfree] at htaken; cases htaken
    | next _ hrest => exact ih hrest

/-- The search passes the numbers below the least free one and stops there. -/
theorem LeastFree.seeks {n : ℕ} (h : ns.LeastFree base n) (k : ℕ) (hk : k ≤ n) :
    Seeks ns base (n - k + 1) (numbered base (n - k))
      (numbered base n, ⟨numbered base n :: ns.taken⟩) := by
  -- Induction on how far the search still is from its end.
  induction k with
  | zero => exact .found (reserve?_of_free h.free)
  | succ k ih =>
    have hstep : n - (k + 1) + 1 = n - k := by omega
    refine .next (reserve?_of_taken (h.below _ (by omega))) ?_
    rw [hstep]
    exact ih (by omega)

end

/-- The search ends, and `fresh` is its outcome. -/
theorem seeks_fresh (ns : Names) (base : String) : Seeks ns base 0 base (ns.fresh base) := by
  by_cases h : base ∈ ns.taken
  · obtain ⟨n, hname, hleast⟩ := freshName_least h
    have hrest := hleast.seeks n le_rfl
    rw [Nat.sub_self] at hrest
    rw [fresh, hname]
    exact .next (reserve?_of_taken h) hrest
  · have hname : ns.freshName base = base := if_neg h
    rw [fresh, hname]
    exact .found (reserve?_of_free h)

/-- What is promised of the outcome of a search: the wanted name or the one with the least free number,
which was not taken, and now is, and no other name changes. -/
structure Grants (ns : Names) (base : String) (r : String × Names) : Prop where
  wanted : base ∉ ns.taken → r.1 = base
  least : base ∈ ns.taken → ∃ n, r.1 = numbered base n ∧ ns.LeastFree base n
  free : r.1 ∉ ns.taken
  taken : ∀ x, x ∈ r.2.taken ↔ x = r.1 ∨ x ∈ ns.taken

theorem fresh_grants (ns : Names) (base : String) : ns.Grants base (ns.fresh base) where
  wanted h := if_neg h
  least := freshName_least
  free := ns.freshName_not_mem base
  taken _ := List.mem_cons

/-! Runs -/

inductive Call where
  | reserve (name : String)
  | fresh (base : String)

/-- The name that a call grants, if it grants one, and the names after it. -/
def call (ns : Names) : Call → Option String × Names
  | .reserve name => ((ns.reserve? name).map fun _ => name, (ns.reserve? name).getD ns)
  | .fresh base => (some (ns.fresh base).1, (ns.fresh base).2)

/-- The names that calls grant one after the other, and the names after them. -/
def run (ns : Names) : List Call → List String × Names
  | [] => ([], ns)
  | c :: cs => ((ns.call c).1.toList ++ ((ns.call c).2.run cs).1, ((ns.call c).2.run cs).2)

/-- A call grants a free name and takes it, or grants none and changes nothing. -/
theorem call_cases (ns : Names) (c : Call) :
    (∃ x ∉ ns.taken, ns.call c = (some x, ⟨x :: ns.taken⟩)) ∨ ns.call c = (none, ns) := by
  cases c with
  | reserve name =>
    by_cases h : name ∈ ns.taken
    · exact .inr (by rw [call, reserve?_of_taken h]; rfl)
    · exact .inl ⟨name, h, by rw [call, reserve?_of_free h]; rfl⟩
  | fresh base => exact .inl ⟨_, ns.freshName_not_mem base, rfl⟩

/-- The names granted in a run are distinct and were free before it. -/
theorem run_granted (ns : Names) (cs : List Call) :
    (ns.run cs).1.Nodup ∧ ∀ x ∈ (ns.run cs).1, x ∉ ns.taken := by
  induction cs generalizing ns with
  | nil => exact ⟨List.nodup_nil, fun x hx => by cases hx⟩
  | cons c cs ih =>
    obtain ⟨hnodup, hfree⟩ := ih (ns.call c).2
    rw [run]
    rcases ns.call_cases c with ⟨y, hy, hcall⟩ | hcall
    · rw [hcall] at hnodup hfree ⊢
      refine ⟨List.nodup_cons.mpr ⟨fun hmem => hfree y hmem (List.mem_cons_self ..), hnodup⟩, ?_⟩
      intro x hx
      rcases List.mem_cons.mp hx with rfl | hx
      · exact hy
      · exact fun htaken => hfree x hx (List.mem_cons_of_mem _ htaken)
    · rw [hcall] at hnodup hfree ⊢
      exact ⟨hnodup, hfree⟩

/-- After any calls the search for a fresh name ends, in one outcome, and this is as promised; and the
names granted by the calls differ from each other and from those reserved at the beginning. -/
theorem fresh_throughout (reserved : List String) (calls : List Call) :
    (∀ base, ∃ r, ((ofList reserved).run calls).2.call (.fresh base) = (some r.1, r.2) ∧
      (∀ r', Seeks ((ofList reserved).run calls).2 base 0 base r' ↔ r' = r) ∧
      ((ofList reserved).run calls).2.Grants base r) ∧
    ((ofList reserved).run calls).1.Nodup ∧
    ∀ x ∈ ((ofList reserved).run calls).1, x ∉ reserved := by
  refine ⟨fun base => ⟨_, rfl, fun r' => ?_, fresh_grants _ base⟩, run_granted _ calls⟩
  constructor
  · exact fun h => h.unique (seeks_fresh _ base)
  · rintro rfl
    exact seeks_fresh _ base

/-- Wanted names that end in a number compete with numbered ones. -/
example : ((ofList ["clk"]).run [.fresh "x", .fresh "x", .fresh "x_0", .reserve "x_1", .fresh "x",
    .reserve "x_2", .fresh "clk"]).1 = ["x", "x_0", "x_0_0", "x_1", "x_2", "clk_0"] := by decide

end GuardedRtl.Names
