import LS8.CommandLine.Session

/-!
# The command

The command reads its arguments and the program file and hands both to `CommandLine`.  When the
session has ended, its report is written out: printed text to standard output, log and failures to
standard error.
-/

namespace LS8.CommandLine

/-- The obstacle to which the operating system gives this number.  The number may arrive with either
sign. -/
def obstacle (code : UInt32) (text : String) : FileError :=
  match code.toInt32.toInt.natAbs with
  | 20 => .notADirectory
  | 21 => .isADirectory
  | 36 => .nameTooLong
  | _ => .other text

/-- What went wrong with a file, as far as the emulator tells obstacles apart. -/
def fileError : IO.Error → FileError
  | .noFileOrDirectory _ _ _ => .notFound
  | .inappropriateType _ code text => obstacle code text
  | .invalidArgument _ code text => obstacle code text
  | e => .other (toString e)

/-- Reads a file. -/
def readFile (path : String) : IO (Except FileError ByteArray) := do
  try
    return .ok (← IO.FS.readBinFile path)
  catch e =>
    return .error (fileError e)

/-- Runs a program and writes the report out. -/
def runProgram (options : Options) : IO UInt32 := do
  let contents ← readFile options.program
  match options.session fun _ => contents with
  | none => return 1
  | some report =>
    IO.print report.output
    IO.eprint report.errorOutput
    return report.status.toUInt32

end LS8.CommandLine

/-- The command line of the emulator. -/
def main (arguments : List String) : IO UInt32 := do
  match LS8.CommandLine.read arguments with
  | .error e =>
    IO.eprintln ("error: " ++ e.message)
    return LS8.CommandLine.usageStatus.toUInt32
  | .ok .version =>
    IO.print LS8.CommandLine.versionText
    return 0
  | .ok (.run options) => LS8.CommandLine.runProgram options
