import LS8.Event
import LS8.Text.Blank
import LS8.Text.Lines

/-!
# Program listings

A program is written as a text of one byte a line, in binary.  A `#` starts a comment, which runs to
the end of its line, and blank characters around what is left do not count; what remains is the
line's code.  A line whose code is empty says nothing.  A line whose code is a byte adds that byte
to the program.  Any other line is skipped, which is reported with the number of the line.

A byte is written with the digits 0 and 1, as many as one likes as long as the value fits into a
byte.  A mark `0b` or `0B` may stand in front, and underscores may be strewn in under three
conditions: none at the start of the code, none at its end, and no two in a row.
-/

namespace LS8.Listing

/-! ## Bytes -/

/-- Whether the underscores of a code are placed well. -/
def underscoresOk (code : List Char) : Bool :=
  code.head? != some '_' && code.getLast? != some '_'
    && !(code.zip code.tail).contains ('_', '_')

/-- The code without one mark for binary at its start. -/
def dropMark : List Char → List Char
  | '0' :: 'b' :: digits => digits
  | '0' :: 'B' :: digits => digits
  | code => code

/-- The byte that a code stands for. -/
def byte? (code : List Char) : Option UInt8 :=
  if underscoresOk code then
    (Numeral.unsigned? 2 255 ((dropMark code).filter (· ≠ '_'))).map Nat.toUInt8
  else
    none

/-! ## Lines -/

/-- What a line of a listing says. -/
inductive Line
  | blank
  | byte (value : UInt8)
  | other (code : String)
  deriving DecidableEq, Repr

/-- The code of a line: the part before the comment, without the blank characters around it. -/
def code (line : List Char) : List Char :=
  Text.trim (line.takeWhile (· ≠ '#'))

/-- What a line says. -/
def Line.ofText (line : List Char) : Line :=
  match code line with
  | [] => .blank
  | code =>
    match byte? code with
    | some value => .byte value
    | none => .other (String.ofList code)

/-- The byte that a line adds to the program. -/
def Line.byte? : Line → Option UInt8
  | .byte value => some value
  | _ => none

/-- The report on a line, given its number. -/
def Line.event? (number : Nat) : Line → Option Event
  | .other code => some (.lineSkipped number code)
  | _ => none

/-! ## Listings -/

/-- The lines of a listing. -/
def lines (source : String) : List Line :=
  (Text.lines source.toList).map Line.ofText

/-- The program that a listing stands for. -/
def bytes (source : String) : List UInt8 :=
  (lines source).filterMap Line.byte?

/-- The reports on a listing. -/
def log (source : String) : List Event :=
  ((lines source).zipIdx 1).filterMap fun (line, number) => line.event? number

end LS8.Listing
