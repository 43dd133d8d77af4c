import GuardedRtl.Rtl.Eval

/-! Comparison of two expressions over one-bit inputs. Up to twelve inputs every assignment is tried,
in increasing binary order with the first input as the least significant bit. -/

namespace GuardedRtl.Rtl

/-- Two expressions with different values under an assignment. -/
structure Difference where
  inputs : List (String × Bool)
  expected : UInt64
  got : UInt64

inductive Comparison where
  | same
  | different (d : Difference)
  | failed (e : Error)

def bitText (b : Bool) : String := if b then "1" else "0"

def assignmentText : List (String × Bool) → String
  | [] => ""
  | [(name, b)] => name ++ "=" ++ bitText b
  | (name, b) :: rest => name ++ "=" ++ bitText b ++ ", " ++ assignmentText rest

def Difference.message (d : Difference) : String :=
  "\nExpected " ++ assignmentText d.inputs ++ " => " ++ toString d.expected.toNat ++
    "\nGot " ++ toString d.got.toNat

/-- An environment with an assignment written over it. Of two inputs of one name the later counts. -/
def Env.assign (env : Env) (inputs : List (String × Bool)) : Env :=
  inputs.foldl (fun env i => env.bind i.1 (.ofBool i.2)) env

/-- Compares in an environment that holds the assignment. -/
def compareUnder (e₁ e₂ : Expr) (env : Env) (inputs : List (String × Bool)) : Comparison :=
  match e₁.eval env with
  | .error e => .failed e
  | .ok v₁ =>
    match e₂.eval env with
    | .error e => .failed e
    | .ok v₂ => if v₁.bits = v₂.bits then .same else .different ⟨inputs, v₁.bits, v₂.bits⟩

/-- The first assignment at which the comparison does not hold decides. Each is written over the
environment of those before it. -/
def compareUnderAll (e₁ e₂ : Expr) (env : Env) : List (List (String × Bool)) → Comparison
  | [] => .same
  | inputs :: rest =>
    match compareUnder e₁ e₂ (env.assign inputs) inputs with
    | .same => compareUnderAll e₁ e₂ (env.assign inputs) rest
    | c => c

/-- The assignment whose bits are those of `v`, from input number `i` on. -/
def assignment (v : Nat) : Nat → List String → List (String × Bool)
  | _, [] => []
  | i, name :: rest => (name, v.testBit i) :: assignment v (i + 1) rest

def exhaustiveLimit : Nat := 12

/-- The assignments that are tried: all of them, or, where there are too many, all zeros, all ones
and the given samples. -/
def assignments (names : List String) (samples : List Nat) : List (List (String × Bool)) :=
  if names.length ≤ exhaustiveLimit then
    (List.range (Nat.pow 2 names.length)).map fun v => assignment v 0 names
  else
    (0 :: (Nat.pow 2 names.length - 1) :: samples).map fun v => assignment v 0 names

def compareExprs (names : List String) (samples : List Nat) (e₁ e₂ : Expr) : Comparison :=
  compareUnderAll e₁ e₂ Env.empty (assignments names samples)

end GuardedRtl.Rtl
