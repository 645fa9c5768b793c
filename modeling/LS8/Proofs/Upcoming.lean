import LS8.Processor.Step
import LS8.Proofs.Reading

/-!
# The instruction at the program counter

The bytes from the program counter on say what the next step will do.  `upcoming?` reads an instruction
off them directly, without fetching anything, and `decodeFault?` says what is wrong with them: there is
no byte at all, the byte is no opcode, or an operand lies past the end of memory.  The first of these
that applies is the one that counts, so an unknown byte at the last address is an unknown byte.

`decode_cases` says that decoding finds the same, for every program counter that is no further than one
past the end.  Fetching goes upwards one address at a time, so the address that it fails at is the first
past the end, however many operands are missing.
-/

namespace LS8

/-! ## Operations -/

namespace Operation

theorem ofOpcode?_eq_none_iff {byte : UInt8} :
    ofOpcode? byte = none ↔ byte ∉ all.map opcode := by
  rw [ofOpcode?, List.find?_eq_none, List.mem_map]
  simp

/-- An operation has no use for operands that its opcode does not announce. -/
theorem withOperands_congr {op : Operation} {a a' b b' : UInt8} (ha : 0 < op.operandCount → a = a')
    (hb : 1 < op.operandCount → b = b') : op.withOperands a b = op.withOperands a' b' := by
  cases op with
  | nop | halt => rfl
  | loadImmediate => rw [ha (by decide), hb (by decide)]
  | alu op =>
    cases op with
    | inc | dec | not => rw [ha (by decide)]; rfl
    | _ => rw [ha (by decide), hb (by decide)]
  | _ => rw [ha (by decide)]; rfl

end Operation

namespace Processor

/-! ## Reading the bytes -/

/-- The byte at the program counter. -/
def opcode (p : Processor) : UInt8 := p.peek p.counter

/-- The instruction that the bytes from the program counter on stand for, if the first of them is an
opcode. -/
def upcoming? (p : Processor) : Option Instruction :=
  (Operation.ofOpcode? p.opcode).map
    (·.withOperands (p.peek (p.counter + 1)) (p.peek (p.counter + 2)))

/-- The error of needing the first address past the end of memory. -/
def pastEnd : MemoryError := .outOfBounds 256 256

/-- There is no byte at the program counter. -/
def endFault? (p : Processor) : Option DecodeError :=
  if p.counter = 256 then some (.memory pastEnd) else none

/-- The byte at the program counter is none of the opcodes.  Bit 5 tells which error this is. -/
def opcodeFault? (p : Processor) : Option DecodeError :=
  if p.opcode ∈ Operation.all.map Operation.opcode then none
  else if p.opcode.toNat.testBit 5 then some (.unsupportedOperation p.opcode p.counter)
  else some (.unknownInstruction p.opcode p.counter)

/-- The opcode announces more operands, in its two upper bits, than there are bytes behind it. -/
def operandFault? (p : Processor) : Option DecodeError :=
  if 255 < p.counter + p.opcode.toNat / 64 then some (.memory pastEnd) else none

/-- What is wrong with the bytes at the program counter: the first of three faults. -/
def decodeFault? (p : Processor) : Option DecodeError :=
  p.endFault? <|> p.opcodeFault? <|> p.operandFault?

variable {p : Processor} {i : Instruction} {n : Nat}

/-! ## Fetching -/

theorem read_eq_peek (h : n < 256) : p.memory.read n = .ok (p.peek n) := by
  simp [Memory.read, peek, h]

theorem read_end : p.memory.read 256 = .error pastEnd := rfl

theorem peek_eq_of_read {b : UInt8} (h : p.memory.read n = .ok b) : p.peek n = b := by
  rw [read_eq_peek (Memory.lt_of_read_eq_ok h)] at h
  exact Except.ok.inj h

/-- The bytes of an instruction at the program counter stand for this instruction. -/
theorem upcoming?_of_gives (hi : i.WellFormed)
    (h : Fetch.Gives p.memory.read p.counter i.encode) : p.upcoming? = some i := by
  obtain ⟨hopcode, hoperands⟩ := Fetch.gives_cons.mp h
  have hpeek {k : Nat} (hk : k < i.operation.operandCount) :
      p.peek (p.counter + 1 + k) = i.operands.getD k 0 := by
    have hk' : k < i.operands.length := hi.length_operands ▸ hk
    rw [peek_eq_of_read (hoperands.getElem hk'), List.getD_eq_getElem _ _ hk']
  rw [upcoming?, opcode, peek_eq_of_read hopcode, Operation.ofOpcode?_opcode, Option.map_some,
    Operation.withOperands_congr (fun h0 => hpeek h0) fun h1 => hpeek h1, hi.withOperands_operands]

/-! ## Faults -/

theorem endFault?_eq_none (h : p.counter < 256) : p.endFault? = none :=
  if_neg (Nat.ne_of_lt h)

section
variable {op : Operation} (h : p.opcode = op.opcode)
include h

theorem opcodeFault?_eq_none : p.opcodeFault? = none := by
  have hknown : p.opcode ∈ Operation.all.map Operation.opcode := by
    by_contra hunknown
    rw [h, ← Operation.ofOpcode?_eq_none_iff, Operation.ofOpcode?_opcode] at hunknown
    cases hunknown
  exact if_pos hknown

theorem operandFault?_eq :
    p.operandFault? =
      if 255 < p.counter + op.operandCount then some (.memory pastEnd) else none := by
  rw [operandFault?, Operation.operandCount, Opcode.operandCount_eq, h]

end

/-! ## Decoding -/

/-- Decoding finds the first fault that there is, and the upcoming instruction if there is none. -/
theorem decode_cases (h : p.counter ≤ 256) :
    (∃ d, p.decodeFault? = some d ∧
      (Decoding.instruction p.memory.read p.counter).result = .error d) ∨
    ∃ i, p.decodeFault? = none ∧ p.upcoming? = some i ∧ p.counter + i.length ≤ 256 ∧
      (Decoding.instruction p.memory.read p.counter).result = .ok i := by
  have hends := Decoding.ends_instruction p.memory.read p.counter
  generalize Decoding.instruction p.memory.read p.counter = d at hends ⊢
  cases hends with
  | @complete i hi hgives =>
    have hfits : p.counter + i.length ≤ 256 := i.length_encode ▸ hgives.le h
    have hopcode : p.opcode = i.operation.opcode :=
      peek_eq_of_read (Fetch.gives_cons.mp hgives).1
    refine .inr ⟨i, ?_, upcoming?_of_gives hi hgives, hfits, rfl⟩
    rw [hi.length_eq] at hfits
    rw [decodeFault?, endFault?_eq_none (by omega), opcodeFault?_eq_none hopcode,
      operandFault?_eq hopcode, if_neg (by omega)]
    rfl
  | @cutOff i data e hi hdata hshort hgives he =>
    have hend : p.counter + data.length = 256 :=
      (hgives.le h).antisymm (Memory.le_of_read_eq_error he)
    rw [hend, read_end] at he
    cases he
    refine .inl ⟨_, ?_, rfl⟩
    cases data with
    | nil => simp [decodeFault?, endFault?, show p.counter = 256 from hend]
    | cons b rest =>
      obtain ⟨rfl, -⟩ := List.cons_prefix_cons.mp hdata
      have hopcode : p.opcode = i.operation.opcode :=
        peek_eq_of_read (Fetch.gives_cons.mp hgives).1
      rw [hi.length_eq] at hshort
      rw [List.length_cons] at hend hshort
      rw [decodeFault?, endFault?_eq_none (by omega), opcodeFault?_eq_none hopcode,
        operandFault?_eq hopcode, if_pos (by omega)]
      rfl
  | @unknown b hb hnone =>
    have hopcode : p.opcode = b := peek_eq_of_read hb
    have hunknown := Operation.ofOpcode?_eq_none_iff.mp hnone
    refine .inl ⟨_, ?_, rfl⟩
    rw [decodeFault?, endFault?_eq_none (Memory.lt_of_read_eq_ok hb), opcodeFault?, hopcode,
      if_neg hunknown]
    split_ifs <;> rfl

end Processor

end LS8
