/-! Types of circuits. A type, like every part of a circuit, may still have places that are not
filled in; `Ty.absent` stands for such a place. -/

namespace GuardedRtl.Rtl

mutual

/-- A width of `0` leaves the width open. A `foreign` type belongs to no circuit. -/
inductive Ty where
  | absent
  | uint (width : Int64)
  | sint (width : Int64)
  | clock
  | vector (elem : Ty) (count : Int64)
  | bundle (fields : List Field)
  | foreign (kind : String)

/-- A named part of a bundle. -/
structure Field where
  name : String
  type : Ty

end

instance : Inhabited Ty := ⟨.absent⟩

mutual

def Ty.beq : Ty → Ty → Bool
  | .absent, .absent => true
  | .uint v, .uint w => v == w
  | .sint v, .sint w => v == w
  | .clock, .clock => true
  | .vector s m, .vector t n => s.beq t && m == n
  | .bundle fs, .bundle gs => Field.beqAll fs gs
  | .foreign k, .foreign l => k == l
  | _, _ => false

def Field.beqAll : List Field → List Field → Bool
  | [], [] => true
  | ⟨m, s⟩ :: fs, ⟨n, t⟩ :: gs => m == n && s.beq t && Field.beqAll fs gs
  | _, _ => false

end

mutual

theorem Ty.beq_iff (s t : Ty) : s.beq t = true ↔ s = t := by
  cases s with
  | bundle fs => cases t <;> simp [Ty.beq, Field.beqAll_iff fs]
  | vector s m => cases t <;> simp [Ty.beq, Ty.beq_iff s]
  | _ => cases t <;> simp [Ty.beq]
termination_by structural s

theorem Field.beqAll_iff (fs gs : List Field) : Field.beqAll fs gs = true ↔ fs = gs := by
  cases fs with
  | nil => cases gs <;> simp [Field.beqAll]
  | cons f fs =>
    obtain ⟨m, s⟩ := f
    cases gs with
    | nil => simp [Field.beqAll]
    | cons g gs =>
      obtain ⟨n, t⟩ := g
      simp [Field.beqAll, Ty.beq_iff s, Field.beqAll_iff fs]
termination_by structural fs

end

instance : DecidableEq Ty := fun s t => decidable_of_iff _ (Ty.beq_iff s t)

instance : DecidableEq Field := fun f g =>
  decidable_of_iff (f.name = g.name ∧ f.type = g.type) (by cases f; cases g; simp)

/-- Whether the place is filled in. -/
def Ty.isPresent (t : Ty) : Bool := t != .absent

end GuardedRtl.Rtl
