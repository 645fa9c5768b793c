import LS8.Instruction
import LS8.Snapshot

/-!
# Events and the log

While it works, the emulator reports events.  An `Event` says what happened and keeps the numbers
involved, so that statements about a log are statements about data; `Event.message` is its wording
and `Event.level` how much it matters.

A log is the list of all events, in order.  What a reader is shown depends on a threshold only
(`Log.shown`): the events of that level and of the more severe ones.  No operation of the emulator
looks at a threshold.
-/

namespace LS8

/-! ## Levels -/

/-- How much an event matters, the most severe first. -/
inductive Level
  | error
  | warn
  | info
  | debug
  | trace
  deriving DecidableEq, Repr

namespace Level

/-- The place of a level in the order of severity, zero being the most severe. -/
def rank : Level → Nat
  | .error => 0
  | .warn => 1
  | .info => 2
  | .debug => 3
  | .trace => 4

/-- The name of a level. -/
def name : Level → String
  | .error => "ERROR"
  | .warn => "WARN"
  | .info => "INFO"
  | .debug => "DEBUG"
  | .trace => "TRACE"

/-- Whether a threshold lets events of a level through. -/
def admits (threshold level : Level) : Bool := decide (level.rank ≤ threshold.rank)

end Level

/-! ## Events -/

/-- Something that the emulator reports. -/
inductive Event
  /-- `length` bytes are copied into memory, from `start` up to and not including `stop`. -/
  | bytesWritten (length start stop : Nat)
  | decoded (address : Nat) (instruction : Instruction)
  /-- A line of a program text, counted from one, holds something that is not a byte. -/
  | lineSkipped (number : Nat) (code : String)
  /-- A return address was pushed. -/
  | bytePushed (value cell : UInt8)
  | registerPushed (reg value cell : UInt8)
  | popped (value cell reg : UInt8)
  /-- There was nothing to pop into a register. -/
  | stackEmpty (address : Nat) (reg : UInt8)
  /-- The processor is about to take a step. -/
  | traced (snapshot : Snapshot)
  | loading (path : String)
  /-- The bytes of a program file are in memory. -/
  | loaded (count : Nat) (path : String)
  | started
  /-- The computer has halted, after this many instructions in all. -/
  | halted (steps : UInt64)
  deriving DecidableEq, Repr

namespace Event

/-- The level of an event. -/
def level : Event → Level
  | .bytesWritten .. | .decoded .. | .lineSkipped .. => .trace
  | .bytePushed .. | .registerPushed .. | .popped .. => .debug
  | .stackEmpty .. => .warn
  | .traced .. | .loading .. | .loaded .. | .started | .halted .. => .info

/-- The wording of an event. -/
def message : Event → String
  | .bytesWritten length start stop =>
    "writing 0x" ++ Numeral.hex 1 length ++ " bytes to " ++ Numeral.hex4 start ++ " - "
      ++ Numeral.hex4 stop
  | .decoded address instruction =>
    Numeral.hex2 address ++ " | " ++ (Opcode.mk instruction.operation.opcode).text ++ " | "
      ++ instruction.text
  | .lineSkipped number code => "skipping line " ++ Numeral.decimal number ++ ": '" ++ code ++ "'"
  | .bytePushed value cell =>
    "pushed " ++ Numeral.hex2 value.toNat ++ " to " ++ Numeral.hex2 cell.toNat
  | .registerPushed reg value cell =>
    "pushed " ++ Instruction.registerName reg ++ " = " ++ Numeral.hex2 value.toNat ++ " to "
      ++ Numeral.hex2 cell.toNat
  | .popped value cell reg =>
    "popped " ++ Numeral.hex2 value.toNat ++ " from " ++ Numeral.hex2 cell.toNat ++ " into "
      ++ Instruction.registerName reg
  | .stackEmpty address reg =>
    Numeral.hex2 address ++ " | cannot pop from an empty stack | skipping pop into "
      ++ Instruction.registerName reg
  | .traced snapshot => snapshot.text
  | .loading path => "loading LS-8 program " ++ path
  | .loaded count path => "loaded " ++ Numeral.decimal count ++ " bytes from " ++ path
  | .started => "starting LS-8 machine"
  | .halted steps => "halted after " ++ Numeral.decimal steps.toNat ++ " instructions"

/-- The line of the log that reports an event. -/
def line (e : Event) : String := e.level.name ++ " " ++ e.message

end Event

/-! ## Logs -/

/-- The events of a log that a threshold lets through. -/
def Log.shown (threshold : Level) (log : List Event) : List Event :=
  log.filter fun e => threshold.admits e.level

end LS8
