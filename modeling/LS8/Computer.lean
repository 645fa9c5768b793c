import LS8.Directory
import LS8.Listing
import LS8.Processor.Run

/-!
# The computer

A computer is a processor with two settings: whether it traces, which the processor itself keeps,
and a limit on the number of its steps.  It loads a program from a file and runs it.

Loading changes the processor's memory and nothing else.  It reads the whole file first, so a file
that cannot be read, is no text, or holds more bytes than memory has cells leaves the processor as
it was.

A run ends with a flush of the output, whether or not the processor has failed.  If the flush fails,
that is what the run reports.
-/

namespace LS8

/-- Why a program could not be loaded. -/
inductive LoadError
  /-- The file could not be read. -/
  | file (e : FileError)
  /-- The program has more than `capacity` bytes. -/
  | tooLong (path : String) (capacity : Nat)
  /-- The bytes could not be put into memory. -/
  | memory (e : MemoryError)
  deriving DecidableEq, Repr

def LoadError.message : LoadError → String
  | .file e => e.message
  | .tooLong path capacity =>
    "failed to load '" ++ path ++ "' into memory at " ++ Numeral.hex4 capacity
  | .memory e => e.message

/-- A processor with a limit on its steps. -/
structure Computer where
  processor : Processor
  /-- The number of steps after which a run is given up. -/
  stepLimit : Option UInt64
  deriving DecidableEq, Repr

namespace Computer

/-- A new computer. -/
def create (sink : Sink) (tracing : Bool) (stepLimit : Option UInt64) : Computer where
  processor := { Processor.initial sink with tracing }
  stepLimit := stepLimit

/-- Loads the program that a file lists. -/
def load (files : Files) (path : String) : Transition Computer LoadError Unit := do
  let source ← Transition.ofExcept ((files.text path).mapError .file)
  Transition.reportAll (Listing.log source)
  let program := Listing.bytes source
  if 256 < program.length then
    Transition.fail (.tooLong path 256)
  Transition.on (·.processor) (fun c processor => { c with processor })
    ((Processor.load program).mapError .memory)
  Transition.report (.loaded program.length path)

/-- The outcome of a run, given that of the processor's own run. -/
def conclude (c : Computer) (o : Outcome Processor Fault Unit) : Outcome Computer Fault Unit :=
  let after := { c with processor := o.state }
  let log := .started :: o.log
  if o.state.sink.flushable then
    match o.result with
    | .ok () => ⟨.ok (), after, log ++ [.halted o.state.steps]⟩
    | .error e => ⟨.error e, after, log⟩
  else
    ⟨.error .output, after, log⟩

/-- Runs the processor until it halts, fails or reaches the step limit; `none` if that never
happens. -/
def run (c : Computer) : Option (Outcome Computer Fault Unit) :=
  (c.processor.run c.stepLimit).map c.conclude

end Computer

end LS8
