import GuardedRtl.Design.Builder
import GuardedRtl.Design.Elaborate

/-! Euclid's algorithm as a design. `start` takes two operands once the previous computation is over,
two rules reduce them, and `result` is ready when the second of them has become zero. -/

namespace GuardedRtl.Gcd

open Rtl

def x (width : Int64) : State := ⟨0, .register none, "x", .uint width⟩

def y (width : Int64) : State := ⟨1, .register (some 0), "y", .uint width⟩

def zero (width : Int64) : Expr := .unsigned 0 width

/-- Describes the design. What a call complains about is reported again when its draft is finished. -/
def describe (width : Int64) : Building Design := do
  let x' := Expr.leaf (.state (x width))
  let y' := Expr.leaf (.state (y width))
  let keepGoing : Drafting Unit → Drafting Unit := fun work => tryCatch work fun _ => pure ()
  Builder.declare [some (x width), some (y width)]
  Builder.addRule "swap"
  let _ ← Builder.edit "swap" do
    keepGoing (Draft.addGuard (.and (.gt x' y') (.ne y' (zero width))))
    keepGoing (Draft.addUpdate (some (x width)) y')
    keepGoing (Draft.addUpdate (some (y width)) x')
    Draft.finish
  Builder.addRule "subtract"
  let _ ← Builder.edit "subtract" do
    keepGoing (Draft.addGuard (.and (.le x' y') (.ne y' (zero width))))
    keepGoing (Draft.addUpdate (some (y width)) (.tail (.sub y' x') 1))
    Draft.finish
  Builder.addAction "start" [⟨"a", .uint width⟩, ⟨"b", .uint width⟩]
  let _ ← Builder.edit "start" do
    keepGoing (Draft.addGuard (.eq y' (zero width)))
    keepGoing (Draft.addUpdate (some (x width)) (.leaf (← Draft.argument "a")))
    keepGoing (Draft.addUpdate (some (y width)) (.leaf (← Draft.argument "b")))
    Draft.finish
  Builder.addValue "result" (.uint width)
  let _ ← Builder.edit "result" do
    keepGoing (Draft.addGuard (.eq y' (zero width)))
    keepGoing (Draft.setResult x')
    Draft.finish
  Builder.finish

/-- The design over operands of `width` bits. -/
def design (width : Int64) : Except Error Design :=
  ((describe width).run.run { id := 0, name := "Gcd" }).1

/-- The circuit over operands of `width` bits. -/
def circuit (width : Int64) : Except Error Circuit := do (← design width).elaborate

end GuardedRtl.Gcd
