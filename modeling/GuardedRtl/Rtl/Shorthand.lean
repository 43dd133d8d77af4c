import GuardedRtl.Rtl.Circuit

/-! Short ways to write the common parts of a circuit. Every module has a clock and a reset input of
fixed names. -/

namespace GuardedRtl.Rtl

def clockName : String := "clk"

def resetName : String := "reset"

/-- The type of a single bit. -/
def Ty.bit : Ty := .uint 1

def Port.input (name : String) (type : Ty) : Port := ⟨name, type, .input⟩

def Port.output (name : String) (type : Ty) : Port := ⟨name, type, .output⟩

/-- The ports that every module has. -/
def Port.standard : List Port := [.input clockName .clock, .input resetName .bit]

/-- A module with the standard ports before its own. -/
def Module.clocked (name : String) (ports : List Port) (statements : List Stmt) : Module :=
  ⟨name, Port.standard ++ ports, statements⟩

/-- A register on the standard clock. It takes the value `reset`, unless that is absent, while the
reset input is set. -/
def Stmt.clocked (name : String) (type : Ty) (reset : Expr) : Stmt :=
  .register name type (.ref clockName)
    (if reset.isPresent then some ⟨.ref resetName, reset⟩ else none)

namespace Expr

def unsigned (value width : Int64) : Expr := .literal value (.uint width)

def signed (value width : Int64) : Expr := .literal value (.sint width)

def one : Expr := unsigned 1 1

def zero : Expr := unsigned 0 1

def and (a b : Expr) : Expr := .binary .and a b

def or (a b : Expr) : Expr := .binary .or a b

def xor (a b : Expr) : Expr := .binary .xor a b

def add (a b : Expr) : Expr := .binary .add a b

def sub (a b : Expr) : Expr := .binary .sub a b

def not (e : Expr) : Expr := .unary .not e

def eq (a b : Expr) : Expr := .compare .eq a b

def ne (a b : Expr) : Expr := .compare .ne a b

def lt (a b : Expr) : Expr := .compare .lt a b

def gt (a b : Expr) : Expr := .compare .gt a b

def le (a b : Expr) : Expr := .compare .le a b

def ge (a b : Expr) : Expr := .compare .ge a b

end Expr

end GuardedRtl.Rtl
