import LS8.Event

/-!
# Command-line arguments

    ls8 [--trace] [--max-steps N] [-v ...] [--] PROGRAM
    ls8 -V

Arguments are read from left to right, and the first fault ends the reading.  So does a request for
the version, which therefore hides every fault behind it and none before it.

An argument that starts with a hyphen is an option, or a cluster of one-letter options, unless it is
a hyphen alone.  A lone `--` ends the options: what follows are operands, whatever they look like.
Options are named in full.  Only `--max-steps` takes a value, in the argument behind or after an
equals sign; it and `--trace` may be given once.  `-v`, or `--verbose`, counts.

There has to be one operand, the path of the program, and it must not be empty.
-/

namespace LS8.CommandLine

/-! ## Shapes of arguments -/

/-- An argument by its shape. -/
inductive Argument
  /-- `--` alone. -/
  | separator
  /-- A long option, with what follows its first equals sign. -/
  | long (name : String) (value : Option String)
  /-- A cluster of one-letter options. -/
  | short (letters : List Char)
  | operand (text : String)
  deriving DecidableEq, Repr

/-- The shape of an argument. -/
def Argument.ofString (text : String) : Argument :=
  match text.toList with
  | ['-', '-'] => .separator
  | '-' :: '-' :: body =>
    .long (String.ofList (body.takeWhile (· ≠ '=')))
      (match body.dropWhile (· ≠ '=') with
        | [] => none
        | _ :: value => some (String.ofList value))
  | '-' :: letter :: letters => .short (letter :: letters)
  | _ => .operand text

/-! ## What is asked for -/

/-- Why a command line was refused. -/
inductive UsageError
  | unknownOption (name : String)
  /-- The option takes no value. -/
  | unexpectedValue (name value : String)
  | missingValue (name : String)
  /-- The value is not a number of steps. -/
  | invalidStepLimit (value : String)
  | repeatedOption (name : String)
  | extraOperand (text : String)
  /-- The path of the program is empty. -/
  | emptyProgram
  | missingProgram
  deriving DecidableEq, Repr

def UsageError.message : UsageError → String
  | .unknownOption name => "unknown option " ++ name
  | .unexpectedValue name value => "option " ++ name ++ " takes no value, but was given " ++ value
  | .missingValue name => "option " ++ name ++ " needs a value"
  | .invalidStepLimit value => "not a number of steps: '" ++ value ++ "'"
  | .repeatedOption name => "option " ++ name ++ " was given twice"
  | .extraOperand text => "unexpected operand '" ++ text ++ "'"
  | .emptyProgram => "the path of the program is empty"
  | .missingProgram => "the path of the program is missing"

/-- How a program is to be run. -/
structure Options where
  program : String
  /-- Whether to report a snapshot before each step. -/
  tracing : Bool
  /-- The number of steps after which to give up. -/
  stepLimit : Option UInt64
  verbosity : Nat
  deriving DecidableEq, Repr

/-- The threshold that the options set for the log.  Tracing shows at least the level at which
snapshots are reported. -/
def Options.threshold (o : Options) : Level :=
  match o.verbosity with
  | 0 => if o.tracing then .info else .warn
  | 1 => .info
  | 2 => .debug
  | _ => .trace

/-- What a command line asks for. -/
inductive Request
  | version
  | run (options : Options)
  deriving DecidableEq, Repr

/-! ## Reading -/

/-- The options read so far. -/
structure Draft where
  program : Option String
  tracing : Bool
  stepLimit : Option UInt64
  verbosity : Nat
  deriving DecidableEq, Repr

namespace Draft

/-- Nothing read. -/
def empty : Draft := ⟨none, false, none, 0⟩

/-- Takes an operand. -/
def withOperand (d : Draft) (text : String) : Except UsageError Draft :=
  if d.program.isSome then .error (.extraOperand text)
  else if text = "" then .error .emptyProgram
  else .ok { d with program := some text }

/-- Takes the value of `--max-steps`, which has to fit into 64 bits. -/
def withStepLimit (d : Draft) (value : String) : Except UsageError Draft :=
  if d.stepLimit.isSome then .error (.repeatedOption "--max-steps")
  else match Numeral.unsigned? 10 (UInt64.size - 1) value.toList with
    | some limit => .ok { d with stepLimit := some limit.toUInt64 }
    | none => .error (.invalidStepLimit value)

/-- Takes `--trace`. -/
def withTracing (d : Draft) : Except UsageError Draft :=
  if d.tracing then .error (.repeatedOption "--trace") else .ok { d with tracing := true }

/-- Takes one `-v`. -/
def withVerbosity (d : Draft) : Draft := { d with verbosity := d.verbosity + 1 }

/-- The request made by all arguments together. -/
def request (d : Draft) : Except UsageError Request :=
  match d.program with
  | none => .error .missingProgram
  | some program => .ok (.run ⟨program, d.tracing, d.stepLimit, d.verbosity⟩)

/-- Takes a cluster of one-letter options; `none` if one of them asks for the version. -/
def withLetters (d : Draft) : List Char → Except UsageError (Option Draft)
  | [] => .ok (some d)
  | 'v' :: letters => d.withVerbosity.withLetters letters
  | 'V' :: _ => .ok none
  | letter :: _ => .error (.unknownOption ("-" ++ String.singleton letter))

end Draft

/-- What the next argument is to be read as. -/
inductive Expectation
  | anything
  /-- The value of `--max-steps`. -/
  | stepLimit
  | operand
  deriving DecidableEq, Repr

/-- Reads the remaining arguments. -/
def readFrom (d : Draft) : Expectation → List String → Except UsageError Request
  | .stepLimit, [] => .error (.missingValue "--max-steps")
  | _, [] => d.request
  | .stepLimit, text :: rest => do readFrom (← d.withStepLimit text) .anything rest
  | .operand, text :: rest => do readFrom (← d.withOperand text) .operand rest
  | .anything, text :: rest =>
    match Argument.ofString text with
    | .separator => readFrom d .operand rest
    | .operand text => do readFrom (← d.withOperand text) .anything rest
    | .short letters => do
      match ← d.withLetters letters with
      | none => return .version
      | some d => readFrom d .anything rest
    | .long "trace" none => do readFrom (← d.withTracing) .anything rest
    | .long "verbose" none => readFrom d.withVerbosity .anything rest
    | .long "version" none => return .version
    | .long "max-steps" none => readFrom d .stepLimit rest
    | .long "max-steps" (some value) => do readFrom (← d.withStepLimit value) .anything rest
    | .long name (some value) =>
      if name ∈ ["trace", "verbose", "version"] then
        .error (.unexpectedValue ("--" ++ name) value)
      else
        .error (.unknownOption ("--" ++ name))
    | .long name none => .error (.unknownOption ("--" ++ name))

/-- What a list of arguments asks for. -/
def read (arguments : List String) : Except UsageError Request :=
  readFrom Draft.empty .anything arguments

end LS8.CommandLine
