import LS8.CommandLine.Arguments
import LS8.Computer
import LS8.Text.Terminal

/-!
# Sessions

A session is one use of the command: it loads a program, runs it, and leaves a report of everything
that can be seen of it.  The exit status is 0 if the program has halted and 1 if anything failed.
What the program printed goes to standard output; the log and the error, if there is one, go to
standard error.

The log is written for a terminal, an error is not.  Either may quote the path of the program, which
may hold line feeds, so an event can take up several lines.  Only the first of them reads as a line
of the log (`Report.logLines`); the others stand among the lines of the error (`Report.otherLines`).

A failed load is reported with its cause, indented, below the path of the program.
-/

namespace LS8.CommandLine

/-- The text that is printed for the version. -/
def versionText : String := "ls8 0.1.0\n"

/-- The exit status for a command line that was refused. -/
def usageStatus : Nat := 2

/-! ## Reports -/

/-- What can be seen of a session. -/
structure Report where
  status : Nat
  /-- The text on standard output. -/
  output : String
  /-- The events that are shown on standard error. -/
  log : List Event
  /-- The text on standard error that reports a failure. -/
  failure : String
  deriving DecidableEq, Repr

/-- What an event adds to standard error. -/
def eventText (e : Event) : String := Text.display e.line ++ "\n"

/-- The text on standard error. -/
def Report.errorOutput (r : Report) : String := String.join (r.log.map eventText) ++ r.failure

/-- The lines of a text. -/
def linesOf (text : String) : List String := (Text.lines text.toList).map String.ofList

/-- The lines on standard error with which an event begins. -/
def Report.logLines (r : Report) : List String :=
  r.log.filterMap fun e => (linesOf (eventText e)).head?

/-- The other lines on standard error. -/
def Report.otherLines (r : Report) : List String :=
  (r.log.flatMap fun e => (linesOf (eventText e)).tail) ++ linesOf r.failure

/-- The text with four spaces in front of each of its lines. -/
def indented (text : String) : String :=
  "\n".intercalate ((Text.pieces text.toList).map fun line => "    " ++ String.ofList line)

/-- The report of a failed load. -/
def loadFailure (path : String) (e : LoadError) : String :=
  "Error: failed to load " ++ path ++ "\n\nCaused by:\n" ++ indented e.message ++ "\n"

/-- The report of a failed run. -/
def runFailure (e : Fault) : String := "Error: " ++ e.message ++ "\n"

/-! ## The session -/

/-- The report of a session that ended with this computer and this log. -/
def Options.report (o : Options) (status : Nat) (c : Computer) (log : List Event)
    (failure : String) : Report :=
  ⟨status, c.processor.sink.written, Log.shown o.threshold log, failure⟩

/-- Loads and runs a program; `none` if that never ends. -/
def Options.session (o : Options) (files : Files) : Option Report :=
  let start : Event := .loading o.program
  let loaded := Computer.load files o.program (Computer.create Sink.unlimited o.tracing o.stepLimit)
  let log := start :: loaded.log
  match loaded.result with
  | .error e => some (o.report 1 loaded.state log (loadFailure o.program e))
  | .ok () =>
    loaded.state.run.map fun run =>
      match run.result with
      | .error e => o.report 1 run.state (log ++ run.log) (runFailure e)
      | .ok () => o.report 0 run.state (log ++ run.log) ""

end LS8.CommandLine
