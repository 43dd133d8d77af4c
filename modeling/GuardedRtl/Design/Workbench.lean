import GuardedRtl.Design.Builder

/-! Several designs under construction, and the names that their parts go by. -/

namespace GuardedRtl

open Rtl

/-- Builders have numbers. A handle is the number of a builder and the name of one of its drafts. Of
two things with one name the newer counts. -/
structure Workbench where
  states : List (String × State) := []
  builders : List (Nat × Builder) := []
  modules : List (String × Nat) := []
  designs : List (String × Design) := []
  handles : List (String × Nat × String) := []
  args : List (String × Leaf) := []
  next : Nat := 0

namespace Workbench

/-- The name that a state element goes by. -/
def stateName (w : Workbench) (s : State) : String :=
  ((w.states.find? fun kv => kv.2.id == s.id).map (·.1)).getD ""

def addState (w : Workbench) (name : String) (storage : Storage) (hint : String) (type : Ty) :
    State × Workbench :=
  let s : State := ⟨w.next, storage, hint, type⟩
  (s, { w with states := (name, s) :: w.states, next := w.next + 1 })

/-- Begins a design. One of the same name that was finished is forgotten. -/
def start (w : Workbench) (key name : String) : Workbench :=
  { w with
    builders := (w.next, { id := w.next, name }) :: w.builders
    modules := (key, w.next) :: w.modules
    designs := w.designs.filter fun kv => kv.1 != key
    next := w.next + 1 }

/-- Works on a design. -/
def onBuilder {α : Type} (w : Workbench) (id : Nat) (work : Building α) :
    Option (Except Error α × Workbench) := do
  let b ← w.builders.lookup id
  let (r, b) := work.run.run b
  return (r, { w with builders := (id, b) :: w.builders })

/-- Works on a design by its name. -/
def onModule {α : Type} (w : Workbench) (key : String) (work : Building α) :
    Option (Except Error α × Workbench) := do
  w.onBuilder (← w.modules.lookup key) work

/-- Adds a draft to a design; if that succeeds, the handle stands for it. -/
def declare (w : Workbench) (key handle draft : String) (work : Building Unit) :
    Option (Except Error Unit × Workbench) := do
  let id ← w.modules.lookup key
  let (r, w) ← w.onBuilder id work
  match r with
  | .ok () => return (r, { w with handles := (handle, id, draft) :: w.handles })
  | .error _ => return (r, w)

/-- Finishes a design. -/
def finish (w : Workbench) (key : String) : Option (Except Error Design × Workbench) := do
  let (r, w) ← w.onModule key Builder.finish
  match r with
  | .ok d => return (r, { w with designs := (key, d) :: w.designs })
  | .error _ => return (r, w)

end Workbench

end GuardedRtl
