import LS8.Numeral

/-!
# Registers

A bank of a fixed number of byte-wide registers, numbered from zero.  Reading or writing a register
that the bank does not have is an error, which names the register asked for and the size of the
bank, and such a write changes nothing.
-/

namespace LS8

/-- Why a register could not be reached. -/
inductive RegisterError
  /-- The bank of `count` registers has no register with this index. -/
  | invalidRegister (index count : Nat)
  deriving DecidableEq, Repr

def RegisterError.message : RegisterError → String
  | .invalidRegister index count =>
    "register index " ++ Numeral.decimal index ++ " is invalid, must be [0, "
      ++ Numeral.decimal count ++ ")"

/-- A bank of `count` registers. -/
structure Registers (count : Nat) where
  /-- The contents, register 0 first. -/
  values : Vector UInt8 count
  deriving DecidableEq, Repr

namespace Registers

variable {count : Nat}

/-- A bank whose registers are all zero. -/
def zero (count : Nat) : Registers count := ⟨Vector.replicate count 0⟩

/-- A bank with the given contents; registers that no value is given for are zero. -/
def ofList (count : Nat) (values : List UInt8) : Registers count :=
  ⟨Vector.ofFn fun i => values.getD i 0⟩

/-- The contents of a register. -/
def get (r : Registers count) (index : Nat) : Except RegisterError UInt8 :=
  if h : index < count then .ok r.values[index] else .error (.invalidRegister index count)

/-- The bank with a new value in one register. -/
def set (r : Registers count) (index : Nat) (value : UInt8) :
    Except RegisterError (Registers count) :=
  if h : index < count then
    .ok ⟨r.values.set index value⟩
  else
    .error (.invalidRegister index count)

/-- The contents of all registers as text, in brackets. -/
def text (r : Registers count) : String :=
  "[" ++ ", ".intercalate (r.values.toList.map fun v => Numeral.hex2 v.toNat) ++ "]"

end Registers

end LS8
