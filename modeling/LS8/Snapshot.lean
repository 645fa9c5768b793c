import LS8.Registers

/-!
# Snapshots of the processor

A snapshot is what is recorded about a processor before it carries out an instruction: where the
program counter stands, the three bytes from there on, and all eight registers.  `Snapshot.text` is
one line of hexadecimal numbers in that order.  Every byte takes two digits.  The program counter
takes two digits as well while it points into memory, and three when it has run off the end.
-/

namespace LS8

/-- What is recorded about a processor before a step. -/
structure Snapshot where
  counter : Nat
  /-- The bytes at the program counter and at the two addresses after it. -/
  ahead : Vector UInt8 3
  registers : Registers 8
  deriving DecidableEq, Repr

/-- The bytes in two hexadecimal digits each, every one with a space in front. -/
def Snapshot.columns (bytes : List UInt8) : String :=
  String.join (bytes.map fun b => " " ++ Numeral.hex 2 b.toNat)

/-- The snapshot as one line of text. -/
def Snapshot.text (s : Snapshot) : String :=
  "TRACE: " ++ Numeral.hex 2 s.counter ++ " |" ++ columns s.ahead.toList ++ " |"
    ++ columns s.registers.values.toList

end LS8
