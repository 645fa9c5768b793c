/-!
# Output sinks

A sink is where printed text goes.  It keeps all the text it was given, up to its capacity if it
has one.  A write that does not fit fails, but not before the sink has taken the part that fits.
Capacities count characters; the processor prints decimal digits and line feeds only, each of
which is one byte.

Flushing changes nothing.  Whether it works is a property of the sink.
-/

namespace LS8

/-- A destination of printed text. -/
structure Sink where
  /-- The text taken so far. -/
  written : String
  /-- How much text the sink can take in all, if there is a limit. -/
  capacity : Option Nat
  /-- Whether flushing the sink works. -/
  flushable : Bool
  deriving DecidableEq, Repr

namespace Sink

/-- An empty sink that takes everything. -/
def unlimited : Sink := ⟨"", none, true⟩

/-- The part of a text that there is room for. -/
def fitting (s : Sink) (text : String) : String :=
  match s.capacity with
  | none => text
  | some capacity => String.ofList (text.toList.take (capacity - s.written.length))

/-- The sink after a write: it has taken the part of the text that there was room for. -/
def write (s : Sink) (text : String) : Sink :=
  { s with written := s.written ++ s.fitting text }

/-- Whether there is room for all of a text. -/
def accepts (s : Sink) (text : String) : Bool :=
  match s.capacity with
  | none => true
  | some capacity => decide (text.length ≤ capacity - s.written.length)

/-- The text taken since the sink was as `earlier`. -/
def since (s earlier : Sink) : String :=
  String.ofList (s.written.toList.drop earlier.written.length)

end Sink

end LS8
