import GuardedRtl.Design.Draft

/-! A design under construction. Declarations are refused whole or accepted whole, and the design is
finished when all its drafts are. -/

namespace GuardedRtl

open Rtl

/-- `id` tells the designs under construction apart. -/
structure Builder where
  id : Nat
  name : String
  state : List State := []
  drafts : List Draft := []
  frozen : Bool := false

/-- Work on a design under construction. What it changes stays changed when it fails. -/
abbrev Building := ExceptT Error (StateM Builder)

namespace Builder

def problem (b : Builder) (field : String) (reason : Reason) : Error :=
  .construction b.name field reason

def identifiers (b : Builder) : List String := b.drafts.flatMap Draft.identifiers

/-- Whether the elements can be declared after those in `seen`. -/
def checkDeclared (b : Builder) (seen : List State) : List (Option State) → Except Error (List State)
  | [] => .ok []
  | none :: _ => .error (b.problem "state" .missingField)
  | some s :: rest =>
    if s ∈ seen then .error (b.problem s.hint .duplicateName)
    else do
      let ss ← b.checkDeclared seen rest
      pure (s :: ss)

/-- Adds state elements, none of which was added by an earlier declaration. -/
def declare (states : List (Option State)) : Building Unit := do
  let b ← getThe Builder
  if b.frozen then throw (b.problem "" .frozen)
  match b.checkDeclared b.state states with
  | .error e => throw e
  | .ok ss => set { b with state := b.state ++ ss }

def checkName (b : Builder) (name : String) : Except Error Unit :=
  if b.frozen then .error (b.problem name .frozen)
  else if name = "" then .error (b.problem "name" .missingField)
  else if name ∈ b.drafts.map Draft.name then .error (b.problem name .duplicateName)
  else .ok ()

/-- The arguments of a method, given those before them. -/
def makeArgs (b : Builder) (method : String) (before : List Argument) :
    List Field → Except Error (List Argument)
  | [] => .ok before
  | f :: rest =>
    if f.name = "" then .error (b.problem method .missingField)
    else if !f.type.isPresent then .error (b.problem (method ++ "." ++ f.name) .missingField)
    else if f.name ∈ before.map Argument.name then
      .error (b.problem (method ++ "." ++ f.name) .duplicateName)
    else b.makeArgs method (before ++ [⟨b.id, method, f.name, f.type⟩]) rest

/-- The first identifier that is in use, by `taken` or earlier in the list. -/
def firstClash (taken : List String) : List String → Option String
  | [] => none
  | id :: rest => if id ∈ taken then some id else firstClash (id :: taken) rest

/-- Accepts a draft whose identifiers are free. -/
def accept (d : Draft) : Building Unit := do
  let b ← getThe Builder
  match firstClash b.identifiers d.identifiers with
  | some id => throw (b.problem id .duplicateName)
  | none => set { b with drafts := b.drafts ++ [d] }

def addRule (name : String) : Building Unit := do
  MonadExcept.ofExcept ((← getThe Builder).checkName name)
  accept { name, role := .rule }

def addAction (name : String) (args : List Field) : Building Unit := do
  let b ← getThe Builder
  MonadExcept.ofExcept (b.checkName name)
  let args ← MonadExcept.ofExcept (b.makeArgs name [] args)
  accept { name, role := .action args }

def addValue (name : String) (type : Ty) : Building Unit := do
  let b ← getThe Builder
  if !type.isPresent then throw (b.problem name .missingField)
  MonadExcept.ofExcept (b.checkName name)
  accept { name, role := .value type none }

def draft? (b : Builder) (name : String) : Option Draft := b.drafts.find? fun d => d.name = name

def replaceDraft (b : Builder) (d : Draft) : Builder :=
  { b with drafts := b.drafts.map fun x => if x.name = d.name then d else x }

/-- Works on the draft of the given name. -/
def edit {α : Type} (name : String) (work : Drafting α) : Building α := do
  let b ← getThe Builder
  match b.draft? name with
  | none => throw (b.problem name .unknownField)
  | some d =>
    let (r, d) := work.run.run d
    set (b.replaceDraft d)
    MonadExcept.ofExcept r

/-- The constructs of finished drafts, or what is wrong with the first draft that is not. -/
def collect (b : Builder) : List Draft → Except Error (List Construct)
  | [] => .ok []
  | d :: rest =>
    match d.error, d.built? with
    | some e, _ => .error e
    | none, none => .error (b.problem d.name .unfinished)
    | none, some c => do
      let cs ← b.collect rest
      pure (c :: cs)

def rulesOf (cs : List Construct) : List Rule :=
  cs.filterMap fun | .rule r => some r | .method _ => none

def methodsOf (cs : List Construct) : List Method :=
  cs.filterMap fun | .rule _ => none | .method m => some m

/-- Finishes the design, which is possible once. -/
def finish : Building Design := do
  let b ← getThe Builder
  if b.frozen then throw (b.problem "" .frozen)
  let cs ← MonadExcept.ofExcept (b.collect b.drafts)
  set { b with frozen := true }
  pure ⟨b.name, b.state, rulesOf cs, methodsOf cs⟩

end Builder

end GuardedRtl
