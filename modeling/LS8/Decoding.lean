import LS8.Memory

/-!
# Decoding

Decoding turns bytes into an instruction.  The bytes come from a function `Fetch`, which may fail;
in the processor it is `Memory.read`.  First the opcode is fetched and looked up.  Only when it is
known are the operands fetched, exactly as many as the opcode announces, at the addresses that
follow.  The first failure ends the decoding.

A `Decoding` records, beside the outcome, the addresses that were asked for, the one that failed
included.

An unknown byte is reported in one of two ways, according to its own mark for the arithmetic unit.
-/

namespace LS8

/-- Why no instruction could be decoded. -/
inductive DecodeError
  /-- The byte names no operation. -/
  | unknownInstruction (opcode : UInt8) (address : Nat)
  /-- The byte is marked for the arithmetic unit, which has no such operation. -/
  | unsupportedOperation (opcode : UInt8) (address : Nat)
  /-- A byte of the instruction could not be fetched. -/
  | memory (e : MemoryError)
  deriving DecidableEq, Repr

def DecodeError.message : DecodeError → String
  | .unknownInstruction opcode address =>
    "unknown instruction " ++ Numeral.hex2 opcode.toNat ++ " at address " ++ Numeral.hex2 address
  | .unsupportedOperation opcode address =>
    "unsupported ALU operation " ++ Numeral.hex2 opcode.toNat ++ " at address "
      ++ Numeral.hex2 address
  | .memory e => e.message

/-- The operation that an opcode byte found at `address` asks for. -/
def Operation.dispatch (address : Nat) (opcode : UInt8) : Except DecodeError Operation :=
  match ofOpcode? opcode with
  | some op => .ok op
  | none =>
    if (Opcode.mk opcode).usesAlu then
      .error (.unsupportedOperation opcode address)
    else
      .error (.unknownInstruction opcode address)

/-- A source of bytes. -/
abbrev Fetch : Type := Nat → Except MemoryError UInt8

/-- The outcome of fetching or decoding something, with the addresses asked for, in order. -/
structure Decoding (α : Type) where
  /-- The addresses asked for. -/
  fetched : List Nat
  /-- What was decoded, or why nothing was. -/
  result : Except DecodeError α

namespace Decoding

/-- Fetches `n` bytes from `address` on, up to the first failure. -/
def bytes (fetch : Fetch) (address : Nat) : Nat → Decoding (List UInt8)
  | 0 => ⟨[], .ok []⟩
  | n + 1 =>
    match fetch address with
    | .error e => ⟨[address], .error (.memory e)⟩
    | .ok b =>
      let rest := bytes fetch (address + 1) n
      ⟨address :: rest.fetched, rest.result.map (b :: ·)⟩

/-- Decodes the instruction at `address`. -/
def instruction (fetch : Fetch) (address : Nat) : Decoding Instruction :=
  match fetch address with
  | .error e => ⟨[address], .error (.memory e)⟩
  | .ok opcode =>
    match Operation.dispatch address opcode with
    | .error e => ⟨[address], .error e⟩
    | .ok op =>
      let operands := bytes fetch (address + 1) op.operandCount
      ⟨address :: operands.fetched,
        operands.result.map fun bs => op.withOperands (bs.getD 0 0) (bs.getD 1 0)⟩

end Decoding

/-- Decodes the instruction at `address` and reports it. -/
def decodeAt {σ : Type} (fetch : Fetch) (address : Nat) : Transition σ DecodeError Instruction := do
  let i ← Transition.ofExcept (Decoding.instruction fetch address).result
  Transition.report (.decoded address i)
  return i

end LS8
