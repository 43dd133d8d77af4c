/-! Names in use. A fresh name is the wanted one or, if that is taken, the wanted one with the least
number behind it that is free. -/

namespace GuardedRtl

structure Names where
  taken : List String

namespace Names

def ofList (names : List String) : Names := ⟨names⟩

/-- Takes a name, unless it is taken. -/
def reserve? (ns : Names) (name : String) : Option Names :=
  if name ∈ ns.taken then none else some ⟨name :: ns.taken⟩

/-- `base` with the number `n` behind it. -/
def numbered (base : String) (n : Nat) : String := base ++ "_" ++ toString n

/-- The free name for `base`. One of the first `taken.length + 1` numbers is free. -/
def freshName (ns : Names) (base : String) : String :=
  if base ∈ ns.taken then
    match (List.range (ns.taken.length + 1)).find? fun n => numbered base n ∉ ns.taken with
    | some n => numbered base n
    | none => base
  else base

/-- Takes the free name for `base`. -/
def fresh (ns : Names) (base : String) : String × Names :=
  (ns.freshName base, ⟨ns.freshName base :: ns.taken⟩)

end Names

end GuardedRtl
