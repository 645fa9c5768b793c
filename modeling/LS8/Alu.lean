import LS8.Flags

/-!
# The arithmetic and logic unit

Twelve operations on bytes.  Eleven of them give a value, and `CMP` gives new flags and no value;
`AluResult` has one constructor for each, so that no operation can do both.

Arithmetic is modulo 256.  A shift by the width of a byte or more leaves nothing, where the
hardware shift of `UInt8` would take the amount modulo eight, so the amount is tested first.  The
unary operations take a second value and do not look at it.

`ofName` reads the name of an operation.  It matches the mnemonics without regard to the case of
ASCII letters and in every other way exactly.
-/

namespace LS8

/-- The operations of the arithmetic unit. -/
inductive AluOperation
  | add
  | sub
  | mul
  | inc
  | dec
  | cmp
  | and
  | not
  | or
  | xor
  | shl
  | shr
  deriving DecidableEq, Repr

/-- What an operation gives: a value for the destination register, or new flags. -/
inductive AluResult
  /-- A value for the destination register. -/
  | value (v : UInt8)
  /-- New flags, and no value. -/
  | flags (f : Flags)
  deriving DecidableEq, Repr

/-- Why a name was refused. -/
inductive AluError
  | unsupportedOperation (name : String)
  deriving DecidableEq, Repr

def AluError.message : AluError → String
  | .unsupportedOperation name => "unsupported ALU operation '" ++ name ++ "'"

namespace AluOperation

/-- Every operation, once. -/
def all : List AluOperation :=
  [.add, .sub, .mul, .inc, .dec, .cmp, .and, .not, .or, .xor, .shl, .shr]

theorem mem_all (op : AluOperation) : op ∈ all := by
  cases op <;> simp [all]

theorem nodup_all : all.Nodup := by decide

/-- The name of an operation in assembly text. -/
def mnemonic : AluOperation → String
  | .add => "ADD"
  | .sub => "SUB"
  | .mul => "MUL"
  | .inc => "INC"
  | .dec => "DEC"
  | .cmp => "CMP"
  | .and => "AND"
  | .not => "NOT"
  | .or => "OR"
  | .xor => "XOR"
  | .shl => "SHL"
  | .shr => "SHR"

/-- Whether the operation reads its first value only. -/
def isUnary : AluOperation → Bool
  | .inc | .dec | .not => true
  | _ => false

/-- The result of an operation on two bytes. -/
def eval : AluOperation → UInt8 → UInt8 → AluResult
  | .add, a, b => .value (a + b)
  | .sub, a, b => .value (a - b)
  | .mul, a, b => .value (a * b)
  | .inc, a, _ => .value (a + 1)
  | .dec, a, _ => .value (a - 1)
  | .cmp, a, b => .flags (Flags.compare a b)
  | .and, a, b => .value (a &&& b)
  | .not, a, _ => .value (~~~a)
  | .or, a, b => .value (a ||| b)
  | .xor, a, b => .value (a ^^^ b)
  | .shl, a, b => .value (if b < 8 then a <<< b else 0)
  | .shr, a, b => .value (if b < 8 then a >>> b else 0)

/-! ## Names -/

/-- Whether the operation goes by this name.  The two are compared in small letters, where only ASCII
letters are made small. -/
def hasName (op : AluOperation) (name : String) : Bool :=
  op.mnemonic.toList.map Char.toLower == name.toList.map Char.toLower

/-- The operation with a given name. -/
def ofName (name : String) : Except AluError AluOperation :=
  match all.find? (·.hasName name) with
  | some op => .ok op
  | none => .error (.unsupportedOperation name)

end AluOperation

end LS8
