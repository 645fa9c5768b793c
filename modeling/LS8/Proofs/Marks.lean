import LS8.Proofs.Frame

/-!
# The marks of an opcode

An opcode announces in its upper bits how many operands follow, whether the arithmetic unit does the
work, and whether the instruction sets the program counter itself.  The processor takes only the number
of operands from there.  Where an instruction goes on is decided by `execute`, from the operation that
was found in the table of opcodes, and how far the next instruction is by the operands that this one
keeps.  These are tables of their own, and `step_heeds_marks` says that they agree with the marks in
every step that succeeds.

The marks are compared with the operations once, in `setsCounter_iff` and `usesAlu_iff`.  All the rest
is about operations, and goes through the cases of `Effect`.
-/

namespace LS8

/-! ## The table of opcodes -/

namespace Operation

/-- The operations that set the program counter themselves. -/
def jumps : List Operation := [.call, .ret, .jump, .jumpIfEqual, .jumpIfNotEqual]

theorem setsCounter_iff {op : Operation} : (Opcode.mk op.opcode).setsCounter ↔ op ∈ jumps := by
  cases op with
  | alu op => cases op <;> decide
  | _ => decide

theorem usesAlu_iff {op : Operation} : (Opcode.mk op.opcode).usesAlu ↔ op.alu?.isSome := by
  cases op with
  | alu op => cases op <;> decide
  | _ => decide

theorem opcode_inj {op other : Operation} : op.opcode = other.opcode ↔ op = other := by
  refine ⟨fun h => ?_, congrArg opcode⟩
  have hsame := ofOpcode?_opcode op
  rw [h, ofOpcode?_opcode] at hsame
  exact (Option.some.inj hsame).symm

end Operation

namespace Processor

variable {p q : Processor} {i : Instruction} {k : Continuation} {log : List Event}

/-! ## Instructions -/

/-- The opcode is that of a conditional jump whose condition does not hold. -/
def PassesOver (p : Processor) (opcode : UInt8) : Prop :=
  (opcode = Operation.jumpIfEqual.opcode ∧ p.flags.isEqual = false) ∨
    (opcode = Operation.jumpIfNotEqual.opcode ∧ p.flags.isEqual = true)

/-- What comes after an instruction.  A halt stays where it is; an operation that is to set the program
counter sets it to what its register holds in the end, unless it is passed over; every other goes on to
the next instruction. -/
theorem Effect.continuation_cases (h : Effect p i k q log) :
    (i = .halt ∧ k = .halt) ∨
    (i ≠ .halt ∧ (i.operation ∈ Operation.jumps → p.PassesOver i.operation.opcode) ∧ k = .next) ∨
    (i.operation ∈ Operation.jumps ∧ ¬ p.PassesOver i.operation.opcode ∧
      ∃ reg, i.operands = [reg] ∧ reg < 8 ∧ k = .jump (q.value reg)) := by
  cases h with
  | halt => exact .inl ⟨rfl, rfl⟩
  | call h | retEmpty h | ret h | jump h | equalTaken h | unequalTaken h =>
    refine .inr (.inr ⟨?_, ?_, _, rfl, h, rfl⟩) <;>
      simp_all [Instruction.operation, Operation.jumps, Operation.opcode, PassesOver]
  | _ =>
    refine .inr (.inl ⟨?_, ?_, rfl⟩) <;>
      simp_all [Instruction.operation, Operation.jumps, Operation.opcode, PassesOver]

/-! ## Steps -/

/-- The first byte of the instruction carried out is its opcode. -/
theorem Performs.read_opcode (h : p.Performs i q) :
    p.memory.read p.counter = .ok i.operation.opcode := by
  obtain ⟨-, hgives, -⟩ := (Decoding.ends_instruction _ _).of_ok h.decoded
  exact (Fetch.gives_cons.mp hgives).1

/-- The second byte is its first operand, if it has one. -/
theorem Performs.read_operand {reg : UInt8} {rest : List UInt8} (h : p.Performs i q)
    (hi : i.operands = reg :: rest) : p.memory.read (p.counter + 1) = .ok reg := by
  obtain ⟨-, hgives, -⟩ := (Decoding.ends_instruction _ _).of_ok h.decoded
  rw [Instruction.encode, hi] at hgives
  exact (Fetch.gives_cons.mp (Fetch.gives_cons.mp hgives).2).1

/-- The step from `p` to `q` goes as the opcode `o` announces. -/
structure Heeds (o : Opcode) (p q : Processor) : Prop where
  /-- Without the mark for the program counter, the program goes on behind the operands. -/
  goesOn : o.setsCounter = false → o.byte ≠ Operation.halt.opcode →
    q.counter = p.counter + 1 + o.operandCount
  /-- A halt stays where it is. -/
  halts : o.byte = Operation.halt.opcode → q.counter = p.counter
  /-- With the mark, the program goes on at the address that the register named by the operand holds
  after the step. -/
  jumps : o.setsCounter → ¬ p.PassesOver o.byte →
    ∃ reg, p.memory.read (p.counter + 1) = .ok reg ∧ reg < 8 ∧ q.counter = (q.value reg).toNat
  /-- A conditional jump whose condition does not hold is passed over. -/
  passes : p.PassesOver o.byte → q.counter = p.counter + 1 + o.operandCount
  /-- With the mark for the arithmetic unit, the step changes the flags if it compares, and otherwise
  the register named by the first operand. -/
  computes : o.usesAlu → ∃ reg, p.memory.read (p.counter + 1) = .ok reg ∧ reg < 8 ∧
    q = if o.byte = (Operation.alu .cmp).opcode then
        { p with flags := q.flags, counter := q.counter, steps := p.steps + 1 }
      else { p.withValue reg (q.value reg) with counter := q.counter, steps := p.steps + 1 }

theorem Performs.counter_cases (h : p.Performs i q) :
    (i = .halt ∧ q.counter = p.counter) ∨
    (i ≠ .halt ∧ (i.operation ∈ Operation.jumps → p.PassesOver i.operation.opcode) ∧
      q.counter = p.counter + 1 + i.operation.operandCount) ∨
    (i.operation ∈ Operation.jumps ∧ ¬ p.PassesOver i.operation.opcode ∧
      ∃ reg, i.operands = [reg] ∧ reg < 8 ∧ q.counter = (q.value reg).toNat) := by
  have hlength := ((Decoding.ends_instruction _ _).of_ok h.decoded).1.length_eq
  obtain ⟨-, -, k, p', log, heffect, rfl⟩ := performs_iff.mp h
  obtain ⟨hcounter, -, -, -⟩ := heffect.frame
  rcases heffect.continuation_cases with ⟨hi, rfl⟩ | ⟨hi, hjump, rfl⟩ |
    ⟨hi, hpass, reg, hreg, hlt, rfl⟩
  · exact .inl ⟨hi, hcounter⟩
  · refine .inr (.inl ⟨hi, hjump, ?_⟩)
    show p'.counter + i.length = _
    rw [hcounter, hlength, Nat.add_assoc]
  · exact .inr (.inr ⟨hi, hpass, reg, hreg, hlt, rfl⟩)

/-- An operation of the arithmetic unit changes the flags if it compares, and otherwise the first of its
registers. -/
theorem Performs.eq_of_alu (h : p.Performs i q) (halu : i.operation.alu?.isSome) :
    ∃ reg rest, i.operands = reg :: rest ∧ reg < 8 ∧
      q = if i.operation = .alu .cmp then
          { p with flags := q.flags, counter := q.counter, steps := p.steps + 1 }
        else { p.withValue reg (q.value reg) with counter := q.counter, steps := p.steps + 1 } := by
  obtain ⟨-, -, k, p', log, heffect, rfl⟩ := performs_iff.mp h
  cases heffect with
  | @alu op reg other hreg =>
    refine ⟨reg, other.toList, by cases other <;> rfl, hreg, ?_⟩
    by_cases hop : op = .cmp
    · subst hop
      rfl
    · obtain ⟨v, hv⟩ := AluOperation.exists_value hop (p.value reg) (p.operand other)
      have hvalue : ((p.withValue reg v).follow (.alu op reg other) .next).value reg = v := by
        rw [value_follow, value_withValue_self hreg]
      rw [if_neg (by simpa [Instruction.operation] using hop), hv, finishAlu, hvalue]
      rfl
  | _ => simp [Instruction.operation, Operation.alu?] at halu

theorem Performs.heeds (h : p.Performs i q) : Heeds ⟨i.operation.opcode⟩ p q := by
  -- The marks say nothing of a halt, which is recognised by its byte.
  have hhalt : i.operation.opcode = Operation.halt.opcode ↔ i = .halt := by
    rw [Operation.opcode_inj]
    cases i <;> simp [Instruction.operation]
  have hpassed (hpass : p.PassesOver i.operation.opcode) : i ≠ .halt := by
    rintro rfl
    simp [PassesOver, Instruction.operation, Operation.opcode] at hpass
  refine ⟨fun hmark hne => ?_, fun hbyte => ?_, fun hmark hpass => ?_, fun hpass => ?_,
    fun hmark => ?_⟩
  · rcases h.counter_cases with ⟨hi, -⟩ | ⟨-, -, hnext⟩ | ⟨hi, -⟩
    · exact absurd (hhalt.mpr hi) hne
    · exact hnext
    · rw [← Operation.setsCounter_iff, hmark] at hi
      cases hi
  · rw [hhalt] at hbyte
    rcases h.counter_cases with ⟨-, hstays⟩ | ⟨hne, -⟩ | ⟨hi, -⟩
    · exact hstays
    · exact absurd hbyte hne
    · simp [hbyte, Instruction.operation, Operation.jumps] at hi
  · rw [Operation.setsCounter_iff] at hmark
    rcases h.counter_cases with ⟨rfl, -⟩ | ⟨-, hjump, -⟩ | ⟨-, -, reg, hreg, hlt, hcounter⟩
    · simp [Instruction.operation, Operation.jumps] at hmark
    · exact absurd (hjump hmark) hpass
    · exact ⟨reg, h.read_operand hreg, hlt, hcounter⟩
  · rcases h.counter_cases with ⟨hi, -⟩ | ⟨-, -, hnext⟩ | ⟨-, hnot, -⟩
    · exact absurd hi (hpassed hpass)
    · exact hnext
    · exact absurd hpass hnot
  · rw [Operation.usesAlu_iff] at hmark
    obtain ⟨reg, rest, hreg, hlt, hq⟩ := h.eq_of_alu hmark
    refine ⟨reg, h.read_operand hreg, hlt, ?_⟩
    simpa only [Operation.opcode_inj] using hq

/-- **The marks of an opcode predict the step.**  In every step that succeeds, the byte at the program
counter tells where the program goes on: behind as many operands as the byte announces, if it has no
mark for the program counter; at the address in the register of the operand, as it is after the step, if
it has one.  The exceptions are a halt, which stays where it is, and a conditional jump whose condition
does not hold, which is passed over.  If the byte is marked for the arithmetic unit, then nothing changes
but the program counter, the count of steps, and either the flags, for a comparison, or the register
named first. -/
theorem step_heeds_marks {status : Status} (hrun : p.status = .running)
    (h : (step p).result = .ok status) :
    ∃ o : Opcode, p.memory.read p.counter = .ok o.byte ∧ Heeds o p (step p).state := by
  obtain ⟨i, hi⟩ := exists_performs hrun h
  exact ⟨⟨i.operation.opcode⟩, hi.read_opcode, hi.heeds⟩

/-- An increment, a conditional jump that is passed over, and a call to the address that it leaves in the
stack pointer. -/
theorem step_heeds_marks_call :
    let p := loaded .unlimited [0x65, 0, 0x55, 0, 0x50, 7]
    ((p.status = .running ∧ (step p).result = .ok .running) ∧ p.counter = 0 ∧
      (p.after 1).counter = 2 ∧ (p.after 1).flags = p.flags) ∧
    (((p.after 1).status = .running ∧ (step (p.after 1)).result = .ok .running) ∧
      (p.after 2).counter = 4) ∧
    (((p.after 2).status = .running ∧ (step (p.after 2)).result = .ok .running) ∧
      (p.after 3).counter = ((p.after 3).value 7).toNat) := by
  intro p
  have hruns : ∀ j < 3, (p.after j).status = .running ∧ (step (p.after j)).result = .ok .running := by
    decide +kernel
  have hstart : p.counter = 0 ∧ p.memory.read p.counter = .ok 0x65 := by decide +kernel
  have hjeq : (p.after 1).memory.read (p.after 1).counter = .ok 0x55 := by decide +kernel
  have hclear : (p.after 1).flags.isEqual = false := by decide +kernel
  have hcall : (p.after 2).memory.read (p.after 2).counter = .ok 0x50 ∧
      (p.after 2).memory.read ((p.after 2).counter + 1) = .ok 7 := by decide +kernel
  clear_value p
  have hfirst := hruns 0 (by decide)
  have hsecond := hruns 1 (by decide)
  have hthird := hruns 2 (by decide)
  obtain ⟨⟨inc⟩, hinc, hheeds⟩ := step_heeds_marks hfirst.1 hfirst.2
  obtain ⟨⟨jeq⟩, hjeq', hheeds'⟩ := step_heeds_marks hsecond.1 hsecond.2
  obtain ⟨⟨call⟩, hcall', hheeds''⟩ := step_heeds_marks hthird.1 hthird.2
  obtain rfl : 0x65 = inc := Except.ok.inj (hstart.2.symm.trans hinc)
  obtain rfl : 0x55 = jeq := Except.ok.inj (hjeq.symm.trans hjeq')
  obtain rfl : 0x50 = call := Except.ok.inj (hcall.1.symm.trans hcall')
  have hcounter : (p.after 1).counter = p.counter + 1 + 1 := hheeds.goesOn (by decide) (by decide)
  obtain ⟨dest, -, -, hstate⟩ := hheeds.computes (by decide)
  have hnext : (p.after 2).counter = (p.after 1).counter + 1 + 1 := hheeds'.passes (.inl ⟨rfl, hclear⟩)
  obtain ⟨reg, hreg, -, hjump⟩ := hheeds''.jumps (by decide) (by simp [PassesOver, Operation.opcode])
  obtain rfl : 7 = reg := Except.ok.inj (hcall.2.symm.trans hreg)
  rw [hstart.1] at hcounter
  rw [hcounter] at hnext
  exact ⟨⟨hfirst, hstart.1, hcounter, (congrArg Processor.flags hstate :)⟩, ⟨hsecond, hnext⟩, hthird,
    hjump⟩

end Processor

end LS8
