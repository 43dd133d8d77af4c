import GuardedRtl.Rtl.Shorthand

/-! Arbitration between rules. Of the rules that can fire, the first one does. The firing signals
are given twice: by masking each rule with those before it, and by a chain of multiplexers. -/

namespace GuardedRtl.Schedule

open Rtl

/-- The firing signals of the rules that follow ones of which `earlier` says whether any can fire. -/
def maskedBy (earlier : Expr) : List Expr → List Expr
  | [] => []
  | canFire :: rest =>
    if earlier.isPresent then
      .and canFire (.not earlier) :: maskedBy (.or earlier canFire) rest
    else canFire :: maskedBy canFire rest

/-- The firing signals for rules with the given signals, highest priority first. -/
def priority (canFire : List Expr) : List Expr := maskedBy .absent canFire

/-- A multiplexer chain that is set when rule `i` is the first that can fire; the chain begins with
rule `j`. -/
def muxChain (i : Nat) : Nat → List Expr → Expr
  | _, [] => .zero
  | j, canFire :: rest =>
    .mux canFire (if j = i then .one else .zero) (muxChain i (j + 1) rest)

/-- The firing signals as multiplexer chains. -/
def muxChains (canFire : List Expr) : List Expr :=
  (List.range canFire.length).map fun i => muxChain i 0 canFire

end GuardedRtl.Schedule
