import GuardedRtl.Proofs.Exactness
import GuardedRtl.Rtl.Cycle
import GuardedRtl.Rtl.Shorthand

/-! What statements refer to, declare and drive, and what settling makes of them: where every
connection reads only what is known by then, settling finds values that solve all connections at
once. Main statement: `Settling.run_solution`. -/

namespace GuardedRtl.Rtl

/-- The names that an expression refers to. -/
def Expr.refs (e : Expr) : List String :=
  e.parts.filterMap fun | .ref x => some x | _ => none

theorem Expr.mem_refs {e : Expr} {x : String} : x ∈ e.refs ↔ .ref x ∈ e.parts := by
  rw [Expr.refs, List.mem_filterMap]
  constructor
  · rintro ⟨p, hp, hx⟩
    cases p with
    | ref y => cases hx; exact hp
    | _ => cases hx
  · exact fun h => ⟨.ref x, h, rfl⟩

theorem Expr.refs_eq_nil_iff {e : Expr} : e.refs = [] ↔ ∀ p ∈ e.parts, ∀ x, p ≠ .ref x := by
  simp only [List.eq_nil_iff_forall_not_mem, Expr.mem_refs]
  constructor
  · rintro h p hp x rfl
    exact h x hp
  · exact fun h x hx => h _ hx x rfl

theorem Expr.refs_operands {e : Expr} (h : e.refs = []) : e.AllOperands fun o => o.refs = [] := by
  simp only [Expr.refs_eq_nil_iff] at h ⊢
  by_cases hp : e.isPresent
  · exact ((Expr.forall_parts hp).mp h).2
  · obtain rfl : e = .absent := by simpa [Expr.isPresent] using hp
    trivial

section

variable (a b c : Expr)

@[simp] theorem Expr.refs_ref (x : String) : (Expr.ref x).refs = [x] := rfl

@[simp] theorem Expr.refs_and : (Expr.and a b).refs = a.refs ++ b.refs := by
  simp [Expr.refs, Expr.and, Expr.parts]

@[simp] theorem Expr.refs_or : (Expr.or a b).refs = a.refs ++ b.refs := by
  simp [Expr.refs, Expr.or, Expr.parts]

@[simp] theorem Expr.refs_not : (Expr.not a).refs = a.refs := by
  simp [Expr.refs, Expr.not, Expr.parts]

@[simp] theorem Expr.refs_mux : (Expr.mux a b c).refs = a.refs ++ b.refs ++ c.refs := by
  simp [Expr.refs, Expr.parts]

@[simp] theorem Expr.refs_validIf : (Expr.validIf a b).refs = a.refs ++ b.refs := by
  simp [Expr.refs, Expr.parts]

end

namespace Stmt

def refs : Stmt → List String
  | .connect lhs rhs => lhs :: rhs.refs
  | .register _ _ clock reset =>
    clock.refs ++ (reset.map fun r => r.enable.refs ++ r.value.refs).getD []
  | .printf clock condition _ args => clock.refs ++ condition.refs ++ args.flatMap Expr.refs
  | .stop clock condition _ => clock.refs ++ condition.refs
  | _ => []

def declared : Stmt → List String
  | .register name _ _ _ => [name]
  | .wire name _ => [name]
  | _ => []

def driven : Stmt → List String
  | .connect lhs _ => [lhs]
  | _ => []

/-- Whether every statement uses only what is known from before or added by earlier statements. -/
def Ordered (uses adds : Stmt → List String) (known : List String) : List Stmt → Prop
  | [] => True
  | s :: rest => uses s ⊆ known ∧ Ordered uses adds (known ++ adds s) rest

section

variable {uses adds : Stmt → List String} {ss ts : List Stmt} {known : List String}

theorem Ordered.mono {known' : List String} (h : Ordered uses adds known ss) (hsub : known ⊆ known') :
    Ordered uses adds known' ss := by
  induction ss generalizing known known' with
  | nil => trivial
  | cons s ss ih =>
    refine ⟨List.Subset.trans h.1 hsub, ih h.2 ?_⟩
    exact List.append_subset.mpr
      ⟨List.subset_append_of_subset_left _ hsub, List.subset_append_right ..⟩

theorem Ordered.append (hs : Ordered uses adds known ss)
    (ht : Ordered uses adds (known ++ ss.flatMap adds) ts) : Ordered uses adds known (ss ++ ts) := by
  induction ss generalizing known with
  | nil => simpa using ht
  | cons s ss ih =>
    refine ⟨hs.1, ih hs.2 ?_⟩
    rwa [List.append_assoc, ← List.flatMap_cons]

theorem ordered_of_forall (h : ∀ s ∈ ss, uses s ⊆ known) : Ordered uses adds known ss := by
  induction ss with
  | nil => trivial
  | cons s ss ih =>
    obtain ⟨hs, hss⟩ := List.forall_mem_cons.mp h
    exact ⟨hs, (ih hss).mono (List.subset_append_left ..)⟩

theorem ordered_flatMap {α : Type} {f : α → List Stmt} {as : List α}
    (h : ∀ a ∈ as, Ordered uses adds known (f a)) : Ordered uses adds known (as.flatMap f) := by
  induction as with
  | nil => trivial
  | cons a as ih =>
    obtain ⟨ha, has⟩ := List.forall_mem_cons.mp h
    exact ha.append ((ih has).mono (List.subset_append_left ..))

end

/-- Every statement refers only to what is known from before or declared earlier. -/
def Scoped (known : List String) (ss : List Stmt) : Prop := Ordered refs declared known ss

end Stmt

/-- All names of a module: those of its ports and of what its statements declare. -/
def Module.names (m : Module) : List String :=
  m.ports.map Port.name ++ m.statements.flatMap Stmt.declared

/-- What the connections of a module drive. -/
def Module.driven (m : Module) : List String := m.statements.flatMap Stmt.driven

/-! Settling -/

/-- The value of an expression depends only on the names that it refers to. -/
theorem Expr.value_congr {e : Expr} {env env' : Env} (h : ∀ x ∈ e.refs, env x = env' x) :
    e.value env = e.value env' := by
  simp only [Expr.mem_refs] at h
  induction e with
  | absent | literal v t | leaf l => rfl
  | ref x => rw [Expr.value, Expr.value, h x (List.mem_singleton_self _)]
  | mux s a b ihs iha ihb =>
    rw [Expr.value, Expr.value, ihs fun x hx => h x (by simp [Expr.parts, hx]),
      iha fun x hx => h x (by simp [Expr.parts, hx]), ihb fun x hx => h x (by simp [Expr.parts, hx])]
  | validIf a b iha ihb | binary op a b iha ihb | compare op a b iha ihb
  | shiftLeft a n b iha ihb | shiftRight a n b iha ihb =>
    rw [Expr.value, Expr.value, iha fun x hx => h x (by simp [Expr.parts, hx]),
      ihb fun x hx => h x (by simp [Expr.parts, hx])]
  | unary op a ih | pad a w ih | bits a hi lo ih | head a n ih | tail a n ih =>
    rw [Expr.value, Expr.value, ih fun x hx => h x (by simp [Expr.parts, hx])]

theorem Expr.eval_congr {e : Expr} {env env' : Env} (h : ∀ x ∈ e.refs, env x = env' x) :
    e.eval env = e.eval env' := by
  rw [Expr.eval, Expr.eval, Expr.value_congr h]

/-- What a statement reads when values settle. -/
def Stmt.reads : Stmt → List String
  | .connect _ rhs => rhs.refs
  | _ => []

def connections (ss : List Stmt) : List (String × Expr) :=
  ss.filterMap fun | .connect lhs rhs => some (lhs, rhs) | _ => none

theorem mem_connections {ss : List Stmt} {lhs : String} {rhs : Expr} :
    (lhs, rhs) ∈ connections ss ↔ .connect lhs rhs ∈ ss := by
  rw [connections, List.mem_filterMap]
  constructor
  · rintro ⟨s, hs, heq⟩
    cases s with
    | connect lhs' rhs' => cases heq; exact hs
    | _ => cases heq
  · exact fun h => ⟨_, h, rfl⟩

theorem connections_fst (ss : List Stmt) : (connections ss).map Prod.fst = ss.flatMap Stmt.driven := by
  induction ss with
  | nil => rfl
  | cons s ss ih =>
    cases s with
    | connect lhs rhs => exact congrArg (lhs :: ·) ih
    | _ => exact ih

/-- The values `settled` solve all connections at once: what is driven and is no register has the
value of its connection, and all else is as before. -/
structure Solution (registers : List String) (ss : List Stmt) (env settled : Env)
    (outcomes : List Driven) : Prop where
  outcomes : outcomes = (connections ss).map fun c => (c.1, c.2.eval settled)
  solved : ∀ lhs rhs, .connect lhs rhs ∈ ss → lhs ∉ registers → ∀ v, rhs.eval settled = .ok v →
    settled lhs = some v
  frame : ∀ x, x ∈ registers ∨ x ∉ ss.flatMap Stmt.driven → settled x = env x

theorem Solution.mem_outcomes {registers : List String} {ss : List Stmt} {env settled : Env}
    {outcomes : List Driven} (h : Solution registers ss env settled outcomes) {x : String}
    {o : Except Error Value} :
    (x, o) ∈ outcomes ↔ ∃ rhs, .connect x rhs ∈ ss ∧ rhs.eval settled = o := by
  rw [h.outcomes, List.mem_map]
  constructor
  · rintro ⟨⟨lhs, rhs⟩, hmem, heq⟩
    cases heq
    exact ⟨rhs, mem_connections.mp hmem, rfl⟩
  · rintro ⟨rhs, hmem, rfl⟩
    exact ⟨(x, rhs), mem_connections.mpr hmem, rfl⟩

/-- What is driven once has one outcome. -/
theorem Solution.outcome_unique {registers : List String} {ss : List Stmt} {env settled : Env}
    {outcomes : List Driven} (h : Solution registers ss env settled outcomes)
    (honce : (ss.flatMap Stmt.driven).Nodup) {x : String} {rhs : Expr} (hmem : .connect x rhs ∈ ss)
    (o : Except Error Value) : (x, o) ∈ outcomes ↔ o = rhs.eval settled := by
  rw [h.mem_outcomes]
  constructor
  · rintro ⟨rhs', hmem', rfl⟩
    rw [← connections_fst] at honce
    cases List.inj_on_of_nodup_map honce (mem_connections.mpr hmem) (mem_connections.mpr hmem') rfl
    rfl
  · rintro rfl
    exact ⟨rhs, hmem, rfl⟩

namespace Settling

theorem step_registers {s : Settling} {lhs : String} {rhs : Expr} :
    (s.step (.connect lhs rhs)).1.registers = s.registers := by
  rw [step]
  split
  · split_ifs <;> rfl
  · rfl

theorem step_outcomes {s : Settling} {lhs : String} {rhs : Expr} :
    (s.step (.connect lhs rhs)).2 = [(lhs, rhs.eval s.env)] := by
  rw [step]
  split <;> rename_i h <;> rw [h]

/-- A connection changes nothing but what it drives, and that only if it is no register. -/
theorem step_frame {s : Settling} {lhs : String} {rhs : Expr} {x : String}
    (h : x ∈ s.registers ∨ x ≠ lhs) : (s.step (.connect lhs rhs)).1.env x = s.env x := by
  rw [step]
  split
  · split_ifs with hreg
    · rfl
    · have hne : x ≠ lhs := h.elim (fun hx heq => hreg (heq ▸ hx)) id
      exact if_neg hne
  · rfl

theorem step_driven {s : Settling} {lhs : String} {rhs : Expr} {v : Value} (hlhs : lhs ∉ s.registers)
    (h : rhs.eval s.env = .ok v) : (s.step (.connect lhs rhs)).1.env lhs = some v := by
  rw [step, h]
  simp [hlhs, Env.bind]

theorem run_cons (s : Settling) (stmt : Stmt) (ss : List Stmt) :
    s.run (stmt :: ss) =
      (((s.step stmt).1.run ss).1, (s.step stmt).2 ++ ((s.step stmt).1.run ss).2) := rfl

theorem run_append (s : Settling) (ss ts : List Stmt) :
    s.run (ss ++ ts) = (((s.run ss).1.run ts).1, (s.run ss).2 ++ ((s.run ss).1.run ts).2) := by
  induction ss generalizing s with
  | nil => rfl
  | cons stmt ss ih => rw [List.cons_append, run_cons, ih, run_cons, List.append_assoc]

/-- Where every connection reads only what is known from before or driven earlier, and nothing is
driven twice, settling solves all connections. -/
theorem run_solution {ss : List Stmt} {s : Settling} {known : List String}
    (hregisters : ∀ name type clock reset, .register name type clock reset ∉ ss)
    (hordered : Stmt.Ordered Stmt.reads Stmt.driven known ss)
    (honce : (ss.flatMap Stmt.driven).Nodup)
    (hknown : ∀ x ∈ known, x ∈ s.registers ∨ x ∉ ss.flatMap Stmt.driven) :
    Solution s.registers ss s.env (s.run ss).1.env (s.run ss).2 := by
  induction ss generalizing s known with
  | nil => exact ⟨rfl, fun _ _ hmem => (List.not_mem_nil hmem).elim, fun _ _ => rfl⟩
  | cons stmt ss ih =>
    have hregisters' : ∀ name type clock reset, .register name type clock reset ∉ ss :=
      fun _ _ _ _ hmem => hregisters _ _ _ _ (List.mem_cons_of_mem _ hmem)
    cases stmt with
    | connect lhs rhs =>
      obtain ⟨hlhs, honce⟩ := List.nodup_cons.mp honce
      have hknown' : ∀ x ∈ known ++ [lhs], x ∈ (s.step (.connect lhs rhs)).1.registers ∨
          x ∉ ss.flatMap Stmt.driven := by
        rw [step_registers]
        refine List.forall_mem_append.mpr ⟨fun x hx => ?_, List.forall_mem_singleton.mpr (.inr hlhs)⟩
        exact (hknown x hx).imp_right fun hnot hmem => hnot (List.mem_cons_of_mem _ hmem)
      obtain ⟨houtcomes, hsolved, hframe⟩ := ih hregisters' hordered.2 honce hknown'
      rw [step_registers] at hsolved hframe
      rw [run_cons]
      -- What the connection reads has the value that it had when the connection was evaluated.
      have hread : ∀ x ∈ known, ((s.step (.connect lhs rhs)).1.run ss).1.env x = s.env x := by
        intro x hx
        have hx' := hknown x hx
        refine (hframe x (hx'.imp_right fun hnot hmem => hnot (List.mem_cons_of_mem _ hmem))).trans ?_
        exact step_frame (hx'.imp_right fun hnot heq => hnot (heq ▸ List.mem_cons_self ..))
      have heval : rhs.eval ((s.step (.connect lhs rhs)).1.run ss).1.env = rhs.eval s.env :=
        Expr.eval_congr fun x hx => hread x (hordered.1 hx)
      refine ⟨?_, fun lhs' rhs' hmem hreg v hv => ?_, fun x hx => ?_⟩
      · change _ = (lhs, rhs.eval _) :: (connections ss).map _
        rw [heval, step_outcomes, ← houtcomes]
        rfl
      · rcases List.mem_cons.mp hmem with heq | hmem
        · cases heq
          rw [heval] at hv
          exact (hframe lhs (.inr hlhs)).trans (step_driven hreg hv)
        · exact hsolved lhs' rhs' hmem hreg v hv
      · refine (hframe x (hx.imp_right fun hnot hmem => hnot (List.mem_cons_of_mem _ hmem))).trans ?_
        exact step_frame (hx.imp_right fun hnot heq => hnot (heq ▸ List.mem_cons_self ..))
    | register name type clock reset => exact absurd (List.mem_cons_self ..) (hregisters _ _ _ _)
    | absent | wire | printf | stop | foreign =>
      obtain ⟨houtcomes, hsolved, hframe⟩ := ih hregisters' (by simpa [Stmt.driven] using hordered.2)
        honce hknown
      refine ⟨houtcomes, fun lhs rhs hmem => ?_, hframe⟩
      rcases List.mem_cons.mp hmem with heq | hmem
      · cases heq
      · exact hsolved lhs rhs hmem

end Settling

end GuardedRtl.Rtl
