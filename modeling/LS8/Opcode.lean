import LS8.Numeral

/-!
# The opcode byte

An opcode byte is laid out as `AABCDDDD`: `AA` counts the operand bytes that follow, `B` marks the
operations of the arithmetic unit, `C` those that set the program counter themselves, and `DDDD`
tells the operations with the same marks apart.

`bit` and `field` read single bits and runs of bits out of a byte, and refuse positions outside of
it.  The two refusals are worded differently: a bit names its own index, which has to be below 8, a
field the position just past its end, which has to be below 9.  A field of no bits at all is
refused as well, in the same words.
-/

namespace LS8

/-- What was to be read out of a byte. -/
inductive BitSpan
  | bit
  | field
  deriving DecidableEq, Repr

/-- The noun that a message uses for a span. -/
def BitSpan.noun : BitSpan → String
  | .bit => "bit"
  | .field => "field"

/-- Why nothing could be read out of a byte. -/
inductive OpcodeError
  /-- The index is not in the range from 0 up to the bound. -/
  | indexOutOfBounds (span : BitSpan) (index bound : Nat)
  deriving DecidableEq, Repr

def OpcodeError.message : OpcodeError → String
  | .indexOutOfBounds span index bound =>
    span.noun ++ " index " ++ Numeral.decimal index ++ " out of bounds, must be [0, "
      ++ Numeral.decimal bound ++ ")"

/-- A byte read as an opcode. -/
structure Opcode where
  byte : UInt8
  deriving DecidableEq, Repr

namespace Opcode

/-- The number of bits in an opcode. -/
def width : Nat := 8

/-- The opcode as text: `0x` and two hexadecimal digits. -/
def text (o : Opcode) : String := Numeral.hex2 o.byte.toNat

/-- The byte whose lowest `n` bits are set and whose other bits are clear. -/
def mask (n : Nat) : UInt8 := (((1 : Nat) <<< n) - 1).toUInt8

/-- The `count` bits from position `lsb` upwards, for a position inside the byte. -/
def extract (o : Opcode) (span : BitSpan) (lsb count : Nat) : Except OpcodeError UInt8 :=
  if lsb < width then
    .ok ((o.byte >>> lsb.toUInt8) &&& mask count)
  else
    .error (.indexOutOfBounds span lsb width)

/-- The bit at an index. -/
def bit (o : Opcode) (index : Nat) : Except OpcodeError Bool :=
  (o.extract .bit index 1).map (· == 1)

/-- The field of `count` bits whose lowest bit is at position `lsb`. -/
def field (o : Opcode) (lsb count : Nat) : Except OpcodeError UInt8 :=
  if count = 0 ∨ width < lsb + count then
    .error (.indexOutOfBounds .field (lsb + count) (width + 1))
  else
    o.extract .field lsb count

/-! ## The marks of an opcode -/

/-- The number of operand bytes announced by bits 7 and 6. -/
def operandCount (o : Opcode) : Nat := (o.byte >>> 6).toNat

/-- Whether bit 5 marks an operation of the arithmetic unit. -/
def usesAlu (o : Opcode) : Bool := (o.byte >>> 5) &&& 1 == 1

/-- Whether bit 4 marks an operation that sets the program counter itself. -/
def setsCounter (o : Opcode) : Bool := (o.byte >>> 4) &&& 1 == 1

end Opcode

end LS8
