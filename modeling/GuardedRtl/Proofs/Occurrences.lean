import GuardedRtl.Proofs.Language
import GuardedRtl.Proofs.Listing

/-! What the nodes of a tree are to the nodes that hold them. The occurrences below a node are listed
in post-order, each with the field that it is the value of: one that has to be filled, one that may be
empty, or a list. Without the fields the list is the post-order of the tree (`Node.map_occurrences`). -/

namespace GuardedRtl.Rtl

/-- What a node is for the one that holds it. The root of a tree is held by none. -/
inductive Position where
  | root
  | required (owner field : String)
  | optional
  | element

def Position.isRequired : Position → Bool
  | .required _ _ => true
  | _ => false

structure Occurrence where
  position : Position
  node : Node

/-- What stands in a place, after what is below it; nothing if the place is not filled in. -/
def listed (position : Position) (n : Node) (held : List Occurrence) : List Occurrence :=
  if n.isPresent then held ++ [⟨position, n⟩] else []

mutual

def Ty.held : Ty → List Occurrence
  | .vector elem _ => listed (.required "Vector" "Elem") (.type elem) elem.held
  | .bundle fields => Field.occurrences fields
  | _ => []

def Field.occurrences : List Field → List Occurrence
  | [] => []
  | ⟨name, type⟩ :: fields =>
    listed (.required "Field" "Type") (.type type) type.held ++
      ⟨.element, .field ⟨name, type⟩⟩ :: Field.occurrences fields

end

def Expr.held : Expr → List Occurrence
  | .absent => []
  | .ref _ => []
  | .literal _ type => listed (.required "Literal" "Type") (.type type) type.held
  | .mux sel a b =>
    listed (.required "Mux" "Sel") (.expr sel) sel.held ++
      listed (.required "Mux" "A") (.expr a) a.held ++
      listed (.required "Mux" "B") (.expr b) b.held
  | .validIf valid a =>
    listed (.required "ValidIf" "Valid") (.expr valid) valid.held ++
      listed (.required "ValidIf" "A") (.expr a) a.held
  | .binary _ a b =>
    listed (.required "BinOp" "E1") (.expr a) a.held ++
      listed (.required "BinOp" "E2") (.expr b) b.held
  | .compare _ a b =>
    listed (.required "Cmp" "E1") (.expr a) a.held ++
      listed (.required "Cmp" "E2") (.expr b) b.held
  | .unary _ e => listed (.required "UnOp" "E") (.expr e) e.held
  | .pad e _ => listed (.required "Pad" "E") (.expr e) e.held
  | .shiftLeft e _ amount =>
    listed (.required "ShiftLeft" "E") (.expr e) e.held ++
      listed .optional (.expr amount) amount.held
  | .shiftRight e _ amount =>
    listed (.required "ShiftRight" "E") (.expr e) e.held ++
      listed .optional (.expr amount) amount.held
  | .bits e _ _ => listed (.required "Extract" "E") (.expr e) e.held
  | .head e _ => listed (.required "Head" "E") (.expr e) e.held
  | .tail e _ => listed (.required "Tail" "E") (.expr e) e.held
  | .leaf _ => []

def Reset.held (r : Reset) : List Occurrence :=
  listed (.required "Reset" "Enable") (.expr r.enable) r.enable.held ++
    listed (.required "Reset" "Value") (.expr r.value) r.value.held

def Stmt.held : Stmt → List Occurrence
  | .absent => []
  | .connect lhs rhs =>
    ⟨.required "Connect" "Lhs", .expr (.ref lhs)⟩ ::
      listed (.required "Connect" "Rhs") (.expr rhs) rhs.held
  | .register _ type clock reset =>
    listed (.required "Register" "Type") (.type type) type.held ++
      listed (.required "Register" "Clock") (.expr clock) clock.held ++
      reset.toList.flatMap fun r => listed .optional (.reset r) r.held
  | .wire _ type => listed (.required "WireDeclaration" "Type") (.type type) type.held
  | .printf clock condition _ args =>
    listed (.required "PrintF" "Clock") (.expr clock) clock.held ++
      listed (.required "PrintF" "Condition") (.expr condition) condition.held ++
      args.flatMap fun a => listed .element (.expr a) a.held
  | .stop clock condition _ =>
    listed (.required "Stop" "Clock") (.expr clock) clock.held ++
      listed (.required "Stop" "Condition") (.expr condition) condition.held
  | .foreign _ => []

def Port.held (p : Port) : List Occurrence :=
  listed (.required "Port" "Type") (.type p.type) p.type.held

def Module.held (m : Module) : List Occurrence :=
  (m.ports.flatMap fun p => listed .element (.port p) p.held) ++
    m.statements.flatMap fun s => listed .element (.stmt s) s.held

def Circuit.held (c : Circuit) : List Occurrence :=
  c.modules.flatMap fun m => listed .element (.module m) m.held

/-- What occurs below a node, in post-order. -/
def Node.held : Node → List Occurrence
  | .type t => t.held
  | .field f => listed (.required "Field" "Type") (.type f.type) f.type.held
  | .expr e => e.held
  | .stmt s => s.held
  | .reset r => r.held
  | .port p => p.held
  | .module m => m.held
  | .circuit c => c.held

/-- All that occurs in a node, itself last. -/
def Node.occurrences (n : Node) : List Occurrence := listed .root n n.held

theorem Ty.eq_absent {t : Ty} (h : ¬ t.isPresent) : t = .absent := by simpa [isPresent] using h

theorem Expr.eq_absent {e : Expr} (h : ¬ e.isPresent) : e = .absent := by simpa [isPresent] using h

theorem Stmt.eq_absent {s : Stmt} (h : ¬ s.isPresent) : s = .absent := by simpa [isPresent] using h

/-! The order of occurrences -/

theorem map_listed {position : Position} {n : Node} {held : List Occurrence} {cs : List Tree}
    (htrees : n.trees = [.node n cs]) (hpresent : n.isPresent)
    (hheld : held.map Occurrence.node = Tree.postorderAll cs) :
    (listed position n held).map Occurrence.node = n.postorder := by
  rw [listed, if_pos hpresent, Node.postorder, htrees, Tree.postorderAll_singleton,
    List.map_append, hheld, List.map_singleton]

mutual

theorem Ty.map_listed (position : Position) (t : Ty) :
    (listed position (.type t) t.held).map Occurrence.node = Tree.postorderAll t.trees := by
  cases t with
  | absent => rfl
  | vector elem count => exact Rtl.map_listed (n := .type _) rfl rfl (Ty.map_listed _ elem)
  | bundle fields => exact Rtl.map_listed (n := .type _) rfl rfl (Field.map_occurrences fields)
  | _ => exact Rtl.map_listed (n := .type _) rfl rfl rfl
termination_by structural t

theorem Field.map_occurrences (fields : List Field) :
    (Field.occurrences fields).map Occurrence.node = Tree.postorderAll (Field.trees fields) := by
  cases fields with
  | nil => rfl
  | cons f fields =>
    obtain ⟨name, type⟩ := f
    rw [Field.occurrences, Field.trees, Tree.postorderAll, Tree.postorder, List.map_append,
      List.map_cons, Ty.map_listed _ type, Field.map_occurrences fields, List.append_assoc]
    rfl
termination_by structural fields

end

theorem Expr.map_listed (position : Position) (e : Expr) :
    (listed position (.expr e) e.held).map Occurrence.node = Tree.postorderAll e.trees := by
  induction e generalizing position with
  | absent => rfl
  | ref name | leaf l => exact Rtl.map_listed (n := .expr _) rfl rfl rfl
  | literal v type => exact Rtl.map_listed (n := .expr _) rfl rfl (type.map_listed _)
  | mux s a b ihs iha ihb =>
    refine Rtl.map_listed (n := .expr _) rfl rfl ?_
    simp only [held, List.map_append, ihs, iha, ihb, Tree.postorderAll_append]
  | validIf a b iha ihb | binary op a b iha ihb | compare op a b iha ihb
  | shiftLeft a n b iha ihb | shiftRight a n b iha ihb =>
    refine Rtl.map_listed (n := .expr _) rfl rfl ?_
    simp only [held, List.map_append, iha, ihb, Tree.postorderAll_append]
  | unary op a ih | pad a w ih | bits a hi lo ih | head a n ih | tail a n ih =>
    exact Rtl.map_listed (n := .expr _) rfl rfl (ih _)

theorem Reset.map_held (r : Reset) :
    r.held.map Occurrence.node = Tree.postorderAll (r.enable.trees ++ r.value.trees) := by
  simp only [held, List.map_append, Expr.map_listed, Tree.postorderAll_append]

theorem map_listed_flatMap {α : Type} {g : α → List Tree} {l : α → List Occurrence}
    (h : ∀ a, (l a).map Occurrence.node = Tree.postorderAll (g a)) (as : List α) :
    (as.flatMap l).map Occurrence.node = Tree.postorderAll (as.flatMap g) := by
  rw [List.map_flatMap, Tree.postorderAll_flatMap]
  simp only [h]

theorem Stmt.map_listed (position : Position) (s : Stmt) :
    (listed position (.stmt s) s.held).map Occurrence.node = Tree.postorderAll s.trees := by
  cases s with
  | absent => rfl
  | foreign kind => exact Rtl.map_listed (n := .stmt _) rfl rfl rfl
  | connect lhs rhs =>
    refine Rtl.map_listed (n := .stmt _) rfl rfl ?_
    rw [held, List.map_cons, Expr.map_listed, Tree.postorderAll_append]
    rfl
  | register name type clock reset =>
    refine Rtl.map_listed (n := .stmt _) rfl rfl ?_
    simp only [held, List.map_append, Ty.map_listed, Expr.map_listed, Tree.postorderAll_append]
    congr 1
    cases reset with
    | none => rfl
    | some r =>
      rw [Option.toList_some, List.flatMap_singleton]
      exact Rtl.map_listed (n := .reset r) rfl rfl r.map_held
  | wire name type => exact Rtl.map_listed (n := .stmt _) rfl rfl (type.map_listed _)
  | printf clock condition format args =>
    refine Rtl.map_listed (n := .stmt _) rfl rfl ?_
    simp only [held, List.map_append, Expr.map_listed, Tree.postorderAll_append,
      map_listed_flatMap (fun a => Expr.map_listed .element a)]
  | stop clock condition exitCode =>
    refine Rtl.map_listed (n := .stmt _) rfl rfl ?_
    simp only [held, List.map_append, Expr.map_listed, Tree.postorderAll_append]

theorem Module.map_held (m : Module) : m.held.map Occurrence.node =
    Tree.postorderAll (m.ports.map Port.tree ++ m.statements.flatMap Stmt.trees) := by
  rw [held, List.map_append, Tree.postorderAll_append,
    map_listed_flatMap (fun s => Stmt.map_listed .element s), List.map_eq_flatMap (f := Port.tree)]
  congr 1
  exact map_listed_flatMap
    (fun p => Rtl.map_listed (n := .port p) rfl rfl (p.type.map_listed _)) m.ports

theorem Node.map_occurrences (n : Node) :
    n.occurrences.map Occurrence.node = n.postorder := by
  cases n with
  | type t => exact t.map_listed .root
  | field f => exact map_listed (n := .field f) rfl rfl (f.type.map_listed _)
  | expr e => exact e.map_listed .root
  | stmt s => exact s.map_listed .root
  | reset r => exact map_listed (n := .reset r) rfl rfl r.map_held
  | port p => exact map_listed (n := .port p) rfl rfl (p.type.map_listed _)
  | module m => exact map_listed (n := .module m) rfl rfl m.map_held
  | circuit c =>
    refine map_listed (n := .circuit c) rfl rfl ?_
    rw [List.map_eq_flatMap (f := Module.tree)]
    exact map_listed_flatMap
      (fun m => Rtl.map_listed (n := .module m) rfl rfl m.map_held) c.modules

end GuardedRtl.Rtl
