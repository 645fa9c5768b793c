/-!
# Lines of a text

A line ends at a line feed, and a carriage return right in front of that line feed belongs to the
ending.  Any other carriage return is a character of its line.  What follows the last line feed is
a line too, unless it is empty.

`pieces` cuts at the line feeds alone: a text with `n` of them has `n + 1` pieces, the last one not
ended by any.  `lines` then removes the carriage returns from the pieces that were ended and drops
an empty last piece.
-/

namespace LS8.Text

/-- Puts a character in front of the first piece; a line feed opens a new one. -/
def addToPieces (c : Char) (pieces : List (List Char)) : List (List Char) :=
  if c = '\n' then [] :: pieces
  else match pieces with
    | [] => [[c]]
    | piece :: rest => (c :: piece) :: rest

/-- The stretches of text between the line feeds. -/
def pieces (text : List Char) : List (List Char) :=
  text.foldr addToPieces [[]]

/-- The piece without one carriage return at its end. -/
def dropReturn (piece : List Char) : List Char :=
  if piece.getLast? = some '\r' then piece.dropLast else piece

/-- The lines that a list of pieces stands for. -/
def linesOfPieces : List (List Char) → List (List Char)
  | [] => []
  | [last] => if last = [] then [] else [last]
  | piece :: next :: rest => dropReturn piece :: linesOfPieces (next :: rest)

/-- The lines of a text, without their endings. -/
def lines (text : List Char) : List (List Char) :=
  linesOfPieces (pieces text)

end LS8.Text
