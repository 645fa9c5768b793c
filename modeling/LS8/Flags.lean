/-!
# The comparison flags

The flags remember how the two values of the last comparison were ordered, and are empty until
there has been one.  Written as a byte, bit 0 stands for equal, bit 1 for less and bit 2 for
greater.  Of the eight patterns of these bits only four can arise, so the flags are an optional
`Ordering` and `bits` is a view of it.
-/

namespace LS8

/-- The outcome of the last comparison, if there was one. -/
structure Flags where
  /-- How the first value stood to the second. -/
  last : Option Ordering
  deriving DecidableEq, Repr

namespace Flags

/-- No comparison so far. -/
def clear : Flags := ⟨none⟩

/-- The outcome of comparing two bytes as unsigned numbers. -/
def compare (a b : UInt8) : Flags :=
  ⟨some (if a < b then .lt else if a = b then .eq else .gt)⟩

/-- Whether the last comparison found two equal values. -/
def isEqual (f : Flags) : Bool := f.last == some .eq

/-- Whether the last comparison found the first value to be less. -/
def isLess (f : Flags) : Bool := f.last == some .lt

/-- Whether the last comparison found the first value to be greater. -/
def isGreater (f : Flags) : Bool := f.last == some .gt

/-- The flags as a byte. -/
def bits (f : Flags) : UInt8 :=
  match f.last with
  | none => 0
  | some .eq => 1
  | some .lt => 2
  | some .gt => 4

end Flags

end LS8
