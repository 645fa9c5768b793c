/-!
# Numerals

The ways in which the emulator writes a number and the one way in which it reads one.

Addresses, bytes and lengths are written by `hex`: upper-case hexadecimal digits, filled up with
zeros on the left to a least width and never cut.  Counts, register numbers and printed values are
written by `decimal`.  Characters that cannot be shown are written by `lowerHex`.

Numbers that a person types, in a program text or on the command line, are read by `unsigned?`.
The same rule serves every base up to ten: one `+` may stand in front, at least one digit follows,
nothing else does, and the value must not exceed a stated bound.
-/

namespace LS8.Numeral

/-! ## Writing -/

/-- The number in lower-case hexadecimal, without leading zeros. -/
def lowerHex (n : Nat) : String := String.ofList (Nat.toDigits 16 n)

/-- The number in upper-case hexadecimal, filled up with zeros to at least `width` digits. -/
def hex (width n : Nat) : String :=
  String.ofList (((Nat.toDigits 16 n).map Char.toUpper).leftpad width '0')

/-- A byte as `0x` and two hexadecimal digits; longer numbers keep all their digits. -/
def hex2 (n : Nat) : String := "0x" ++ hex 2 n

/-- An address of memory as `0x` and at least four hexadecimal digits. -/
def hex4 (n : Nat) : String := "0x" ++ hex 4 n

/-- The number in decimal, without leading zeros. -/
def decimal (n : Nat) : String := n.repr

/-! ## Reading -/

/-- Whether the character is a digit of the given base, which is at most ten. -/
def isDigitOf (base : Nat) (c : Char) : Bool :=
  decide ('0'.toNat ≤ c.toNat) && decide (c.toNat < '0'.toNat + base)

/-- The text without one leading `+`. -/
def dropPlus : List Char → List Char
  | '+' :: digits => digits
  | digits => digits

/-- Reads an unsigned numeral of the given base: an optional `+`, then one or more digits, with a
value of at most `bound`. -/
def unsigned? (base bound : Nat) (text : List Char) : Option Nat :=
  let digits := dropPlus text
  if digits ≠ [] ∧ digits.all (isDigitOf base) then
    let value := Nat.ofDigitChars base digits 0
    if value ≤ bound then some value else none
  else
    none

end LS8.Numeral
