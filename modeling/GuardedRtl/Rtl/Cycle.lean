import GuardedRtl.Rtl.Eval

/-! One clock cycle of a module, as far as its connections go: they are evaluated in order, and a
later one sees the values of the earlier ones, except that a register keeps its old value until the
cycle is over. -/

namespace GuardedRtl.Rtl

/-- The registers declared so far, and the values known so far. -/
structure Settling where
  registers : List String
  env : Env

/-- What a connection evaluates to. -/
abbrev Driven := String × Except Error Value

def Settling.step (s : Settling) : Stmt → Settling × List Driven
  | .register name _ _ _ => ({ s with registers := name :: s.registers }, [])
  | .connect lhs rhs =>
    match rhs.eval s.env with
    | .ok v =>
      (if lhs ∈ s.registers then s else { s with env := s.env.bind lhs v }, [(lhs, .ok v)])
    | .error e => (s, [(lhs, .error e)])
  | _ => (s, [])

def Settling.run (s : Settling) : List Stmt → Settling × List Driven
  | [] => (s, [])
  | stmt :: rest =>
    let (s, here) := s.step stmt
    let (s, later) := s.run rest
    (s, here ++ later)

/-- The values that the connections of a module evaluate to, in order. -/
def Module.settle (m : Module) (env : Env) : List Driven := (Settling.run ⟨[], env⟩ m.statements).2

end GuardedRtl.Rtl
