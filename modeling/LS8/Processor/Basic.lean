import LS8.Decoding
import LS8.Sink

/-!
# The processor

A processor is 256 cells of memory shared by program and stack, eight registers, the comparison
flags, a program counter, and a sink for what the program prints.  It is running until it has
carried out a halt.  It counts the instructions that it has carried out, and it can be set to
report a snapshot of itself before each of them.  The count has 64 bits, and behind the greatest
number that they hold it starts again from zero.

The program counter is a natural number and not a byte: an instruction that ends at the last cell
leaves it at 256, one past the end.

Register 7 is the stack pointer.  It is a register like the others, and starts at `stackBase`.

The second half of the file is the vocabulary in which instructions are described: reading and
writing a register named by an operand byte, and printing.
-/

namespace LS8

/-- Whether a processor goes on. -/
inductive Status
  | running
  | halted
  deriving DecidableEq, Repr

/-- Why a step or a run of the processor failed. -/
inductive Fault
  /-- An address outside of the memory was needed. -/
  | memory (e : MemoryError)
  /-- An operand names a register that there is not. -/
  | register (e : RegisterError)
  /-- There was no instruction to carry out. -/
  | decode (e : DecodeError)
  /-- The sink did not take all the output. -/
  | output
  /-- The processor had carried out this many instructions and was still running. -/
  | stepLimit (limit : UInt64)
  deriving DecidableEq, Repr

/-- The text of a fault. -/
def Fault.message : Fault → String
  | .memory e => e.message
  | .register e => e.message
  | .decode e => e.message
  | .output => "failed to write program output"
  | .stepLimit limit => "program did not halt within " ++ Numeral.decimal limit.toNat ++ " steps"

/-- The state of a processor. -/
structure Processor where
  /-- Program and stack. -/
  memory : Memory 256
  /-- The registers, of which number 7 is the stack pointer. -/
  registers : Registers 8
  flags : Flags
  /-- The address of the next instruction. -/
  counter : Nat
  status : Status
  /-- The number of steps that have succeeded so far, modulo 2 ^ 64. -/
  steps : UInt64
  /-- Whether a snapshot is reported before each step. -/
  tracing : Bool
  sink : Sink
  deriving DecidableEq, Repr

namespace Processor

/-- Where the stack pointer starts.  The stack grows towards lower addresses, and it counts as empty
whenever the stack pointer has this value. -/
def stackBase : UInt8 := 0xF4

/-- The contents of the stack pointer. -/
def stackPointer (p : Processor) : UInt8 := p.registers.values[7]

/-- The processor with a new stack pointer. -/
def withStackPointer (p : Processor) (value : UInt8) : Processor :=
  { p with registers := ⟨p.registers.values.set 7 value⟩ }

@[simp] theorem stackPointer_withStackPointer (p : Processor) (value : UInt8) :
    (p.withStackPointer value).stackPointer = value := by
  simp [stackPointer, withStackPointer]

/-- A new processor, which prints to the given sink. -/
def initial (sink : Sink) : Processor where
  memory := Memory.zero 256
  registers := ⟨(Vector.replicate 8 0).set 7 stackBase⟩
  flags := Flags.clear
  counter := 0
  status := .running
  steps := 0
  tracing := false
  sink := sink

/-- Copies a program into memory from address 0 on.  Nothing else is touched. -/
def load (program : List UInt8) : Transition Processor MemoryError Unit :=
  Transition.on (·.memory) (fun p memory => { p with memory }) (Memory.load 0 program)

/-- The byte at an address, and zero past the end of memory. -/
def peek (p : Processor) (address : Nat) : UInt8 :=
  p.memory.cells[address]?.getD 0

/-- What is recorded about the processor before a step. -/
def snapshot (p : Processor) : Snapshot where
  counter := p.counter
  ahead := #v[p.peek p.counter, p.peek (p.counter + 1), p.peek (p.counter + 2)]
  registers := p.registers

/-! ## Registers and output -/

/-- The contents of the register that an operand byte names. -/
def register (index : UInt8) : Transition Processor Fault UInt8 := do
  let p ← get
  Transition.ofExcept ((p.registers.get index.toNat).mapError .register)

/-- Puts a value into the register that an operand byte names. -/
def setRegister (index value : UInt8) : Transition Processor Fault Unit := do
  let p ← get
  let registers ← Transition.ofExcept ((p.registers.set index.toNat value).mapError .register)
  set { p with registers }

/-- Prints a value in decimal on a line of its own. -/
def print (value : UInt8) : Transition Processor Fault Unit := do
  let line := Numeral.decimal value.toNat ++ "\n"
  let p ← get
  set { p with sink := p.sink.write line }
  unless p.sink.accepts line do
    Transition.fail .output

end Processor

end LS8
