import LS8.Processor.Step
import Mathlib

/-!
# What an instruction does to a processor

`Processor.execute` is a program: it reads registers, moves the stack pointer, writes a cell, and may
stop half-way.  This file says what comes out of it.  The operations that it is made of get one
equation each for the case that they succeed and one for the case that they fail.  From these follows
`Effect.iff_execute`: an instruction succeeds exactly when one of the cases of `Effect` applies, and
then that case names the processor and the continuation it gives.  Whatever is true of all successful
steps is proved by going through the cases of `Effect`, and `execute` is not opened again.

Registers are read and written here by total functions, `value` and `withValue`, which ignore a
register that does not exist.  The condition `reg < 8` stands beside them wherever it matters.
-/

namespace LS8.Processor

/-! ## Registers by number -/

/-- The contents of the register that an operand byte names, and zero if there is no such
register. -/
def value (p : Processor) (reg : UInt8) : UInt8 := p.registers.values[reg.toNat]?.getD 0

/-- The processor with a new value in a register, if there is such a register. -/
def withValue (p : Processor) (reg v : UInt8) : Processor :=
  { p with registers := ⟨p.registers.values.setIfInBounds reg.toNat v⟩ }

@[simp] theorem withStackPointer_frame (p : Processor) (v : UInt8) :
    (p.withStackPointer v).memory = p.memory ∧ (p.withStackPointer v).flags = p.flags ∧
      (p.withStackPointer v).counter = p.counter ∧ (p.withStackPointer v).status = p.status ∧
      (p.withStackPointer v).steps = p.steps ∧ (p.withStackPointer v).tracing = p.tracing ∧
      (p.withStackPointer v).sink = p.sink :=
  ⟨rfl, rfl, rfl, rfl, rfl, rfl, rfl⟩

@[simp] theorem withValue_frame (p : Processor) (reg v : UInt8) :
    (p.withValue reg v).memory = p.memory ∧ (p.withValue reg v).flags = p.flags ∧
      (p.withValue reg v).counter = p.counter ∧ (p.withValue reg v).status = p.status ∧
      (p.withValue reg v).steps = p.steps ∧ (p.withValue reg v).tracing = p.tracing ∧
      (p.withValue reg v).sink = p.sink :=
  ⟨rfl, rfl, rfl, rfl, rfl, rfl, rfl⟩

theorem value_seven (p : Processor) : p.value 7 = p.stackPointer := by
  simp [value, stackPointer]

@[simp] theorem withValue_seven (p : Processor) (v : UInt8) :
    p.withValue 7 v = p.withStackPointer v := by
  simp only [withValue, withStackPointer, Processor.mk.injEq, Registers.mk.injEq, true_and,
    and_true]
  ext i hi
  simp [Vector.getElem_setIfInBounds, Vector.getElem_set]

theorem value_withValue_self {reg : UInt8} (h : reg < 8) (p : Processor) (v : UInt8) :
    (p.withValue reg v).value reg = v := by
  have h' : reg.toNat < 8 := UInt8.lt_iff_toNat_lt.mp h
  simp [value, withValue, h']

theorem value_withValue_of_ne {reg other : UInt8} (h : other ≠ reg) (p : Processor) (v : UInt8) :
    (p.withValue reg v).value other = p.value other := by
  have h' : reg.toNat ≠ other.toNat := fun e => h (UInt8.toNat_inj.mp e.symm)
  simp [value, withValue, h']

theorem value_withStackPointer_of_ne {reg : UInt8} (h : reg ≠ 7) (p : Processor) (v : UInt8) :
    (p.withStackPointer v).value reg = p.value reg := by
  rw [← withValue_seven, value_withValue_of_ne h]

theorem stackPointer_withValue_of_ne {reg : UInt8} (h : reg ≠ 7) (p : Processor) (v : UInt8) :
    (p.withValue reg v).stackPointer = p.stackPointer := by
  rw [← value_seven, value_withValue_of_ne (Ne.symm h), value_seven]

theorem get_eq_ok {reg : UInt8} (h : reg < 8) (p : Processor) :
    p.registers.get reg.toNat = .ok (p.value reg) := by
  have h' : reg.toNat < 8 := UInt8.lt_iff_toNat_lt.mp h
  simp [Registers.get, value, h']

/-- A register that exists is read without a failure. -/
theorem register_apply {reg : UInt8} (h : reg < 8) (p : Processor) :
    register reg p = ⟨.ok (p.value reg), p, []⟩ := by
  simp [register, Transition.bind_apply, get_eq_ok h, Except.mapError]

/-- The fault of naming a register that does not exist. -/
def noRegister (reg : UInt8) : Fault := .register (.invalidRegister reg.toNat 8)

theorem register_apply_of_not {reg : UInt8} (h : ¬ reg < 8) (p : Processor) :
    register reg p = ⟨.error (noRegister reg), p, []⟩ := by
  have h' : ¬ reg.toNat < 8 := fun e => h (UInt8.lt_iff_toNat_lt.mpr e)
  simp [register, Transition.bind_apply, Registers.get, noRegister, h', Except.mapError]

/-- A register that exists is written without a failure. -/
theorem setRegister_apply {reg : UInt8} (h : reg < 8) (v : UInt8) (p : Processor) :
    setRegister reg v p = ⟨.ok (), p.withValue reg v, []⟩ := by
  have h' : reg.toNat < 8 := UInt8.lt_iff_toNat_lt.mp h
  simp [setRegister, Transition.bind_apply, Registers.set, withValue, h', Except.mapError,
    Vector.setIfInBounds, Vector.set, Array.setIfInBounds]

theorem setRegister_apply_of_not {reg : UInt8} (h : ¬ reg < 8) (v : UInt8) (p : Processor) :
    setRegister reg v p = ⟨.error (noRegister reg), p, []⟩ := by
  have h' : ¬ reg.toNat < 8 := fun e => h (UInt8.lt_iff_toNat_lt.mpr e)
  simp [setRegister, Transition.bind_apply, Registers.set, noRegister, h', Except.mapError]

/-! ## Loading -/

/-- A program that fits is copied to the beginning of memory, and nothing else happens. -/
theorem load_of_fits {program : List UInt8} (h : program.length ≤ 256) (p : Processor) :
    load program p =
      ⟨.ok (), { p with memory := p.memory.copy 0 program },
        [.bytesWritten program.length 0 program.length]⟩ := by
  simp [load, Transition.on, Memory.load, Transition.bind_apply, h]

/-- A new processor with a program in its memory. -/
def loaded (sink : Sink) (program : List UInt8) : Processor :=
  { initial sink with memory := (Memory.zero 256).copy 0 program }

theorem load_initial {program : List UInt8} (h : program.length ≤ 256) (sink : Sink) :
    load program (initial sink) =
      ⟨.ok (), loaded sink program, [.bytesWritten program.length 0 program.length]⟩ :=
  load_of_fits h (initial sink)

/-! ## The stack -/

/-- The processor after a push: the stack pointer is one lower and points to the byte pushed. -/
def pushed (p : Processor) (v : UInt8) : Processor :=
  { p.withStackPointer (p.stackPointer - 1) with
    memory := p.memory.withCell (p.stackPointer - 1) v }

/-- The byte that a push of a register stores.  The stack pointer has moved when it is read. -/
def pushValue (p : Processor) (reg : UInt8) : UInt8 :=
  (p.withStackPointer (p.stackPointer - 1)).value reg

/-- The processor after a pop: the byte on top is in the register, and the stack pointer, read again,
is one higher. -/
def popped (p : Processor) (reg : UInt8) : Processor :=
  let q := p.withValue reg (p.memory.cell p.stackPointer)
  q.withStackPointer (q.stackPointer + 1)

@[simp] theorem pushed_frame (p : Processor) (v : UInt8) :
    (p.pushed v).flags = p.flags ∧ (p.pushed v).counter = p.counter ∧
      (p.pushed v).status = p.status ∧ (p.pushed v).steps = p.steps ∧
      (p.pushed v).tracing = p.tracing ∧ (p.pushed v).sink = p.sink :=
  ⟨rfl, rfl, rfl, rfl, rfl, rfl⟩

@[simp] theorem memory_pushed (p : Processor) (v : UInt8) :
    (p.pushed v).memory = p.memory.withCell (p.stackPointer - 1) v := rfl

@[simp] theorem stackPointer_pushed (p : Processor) (v : UInt8) :
    (p.pushed v).stackPointer = p.stackPointer - 1 :=
  stackPointer_withStackPointer p _

theorem value_pushed_of_ne {reg : UInt8} (h : reg ≠ 7) (p : Processor) (v : UInt8) :
    (p.pushed v).value reg = p.value reg :=
  value_withStackPointer_of_ne h p _

@[simp] theorem popped_frame (p : Processor) (reg : UInt8) :
    (p.popped reg).memory = p.memory ∧ (p.popped reg).flags = p.flags ∧
      (p.popped reg).counter = p.counter ∧ (p.popped reg).status = p.status ∧
      (p.popped reg).steps = p.steps ∧ (p.popped reg).tracing = p.tracing ∧
      (p.popped reg).sink = p.sink :=
  ⟨rfl, rfl, rfl, rfl, rfl, rfl, rfl⟩

theorem pushValue_eq (p : Processor) (reg : UInt8) :
    p.pushValue reg = if reg = 7 then p.stackPointer - 1 else p.value reg := by
  unfold pushValue
  split_ifs with hreg
  · rw [hreg, value_seven, stackPointer_withStackPointer]
  · exact value_withStackPointer_of_ne hreg p _

theorem stackPointer_popped_of_ne {reg : UInt8} (h : reg ≠ 7) (p : Processor) :
    (p.popped reg).stackPointer = p.stackPointer + 1 := by
  rw [popped, stackPointer_withStackPointer, stackPointer_withValue_of_ne h]

theorem value_popped_self {reg : UInt8} (h : reg < 8) (hne : reg ≠ 7) (p : Processor) :
    (p.popped reg).value reg = p.memory.cell p.stackPointer := by
  rw [popped, value_withStackPointer_of_ne hne, value_withValue_self h]

theorem value_popped_of_ne {reg other : UInt8} (h : other ≠ reg) (hne : other ≠ 7)
    (p : Processor) : (p.popped reg).value other = p.value other := by
  rw [popped, value_withStackPointer_of_ne hne, value_withValue_of_ne h]

theorem growStack_apply (p : Processor) :
    growStack p = ⟨.ok (p.stackPointer - 1), p.withStackPointer (p.stackPointer - 1), []⟩ := rfl

theorem pushByte_apply (v : UInt8) (p : Processor) :
    pushByte v p = ⟨.ok (), p.pushed v, [.bytePushed v (p.stackPointer - 1)]⟩ := rfl

theorem pushRegister_apply {reg : UInt8} (h : reg < 8) (p : Processor) :
    pushRegister reg p = ⟨.ok (), p.pushed (p.pushValue reg),
      [.registerPushed reg (p.pushValue reg) (p.stackPointer - 1)]⟩ := by
  simp [pushRegister, store, Transition.bind_apply, growStack_apply, register_apply h, pushed,
    pushValue]

/-- A push of a register that does not exist fails when the stack pointer has moved already. -/
theorem pushRegister_apply_of_not {reg : UInt8} (h : ¬ reg < 8) (p : Processor) :
    pushRegister reg p =
      ⟨.error (noRegister reg), p.withStackPointer (p.stackPointer - 1), []⟩ := by
  simp [pushRegister, Transition.bind_apply, growStack_apply, register_apply_of_not h]

theorem popInto_apply_of_empty {p : Processor} (h : p.stackPointer = stackBase) (reg : UInt8) :
    popInto reg p = ⟨.ok (), p, [.stackEmpty p.counter reg]⟩ := by
  simp [popInto, Transition.bind_apply, h]

theorem popInto_apply {p : Processor} {reg : UInt8} (h : p.stackPointer ≠ stackBase)
    (hreg : reg < 8) :
    popInto reg p = ⟨.ok (), p.popped reg,
      [.popped (p.memory.cell p.stackPointer) p.stackPointer reg]⟩ := by
  simp [popInto, Transition.bind_apply, h, setRegister_apply hreg, popped]

theorem popInto_apply_of_not {p : Processor} {reg : UInt8} (h : p.stackPointer ≠ stackBase)
    (hreg : ¬ reg < 8) : popInto reg p = ⟨.error (noRegister reg), p, []⟩ := by
  simp [popInto, Transition.bind_apply, h, setRegister_apply_of_not hreg]

/-! ## Printing and jumping -/

/-- The line of output that shows a byte. -/
def printedLine (v : UInt8) : String := Numeral.decimal v.toNat ++ "\n"

/-- The processor after printing a byte to a sink that has room for it. -/
def printed (p : Processor) (v : UInt8) : Processor :=
  { p with sink := p.sink.write (printedLine v) }

@[simp] theorem printed_frame (p : Processor) (v : UInt8) :
    (p.printed v).memory = p.memory ∧ (p.printed v).registers = p.registers ∧
      (p.printed v).flags = p.flags ∧ (p.printed v).counter = p.counter ∧
      (p.printed v).status = p.status ∧ (p.printed v).steps = p.steps ∧
      (p.printed v).tracing = p.tracing :=
  ⟨rfl, rfl, rfl, rfl, rfl, rfl, rfl⟩

theorem print_apply (v : UInt8) (p : Processor) :
    print v p =
      ⟨if p.sink.accepts (printedLine v) then .ok () else .error .output, p.printed v, []⟩ := by
  cases h : p.sink.accepts (printedLine v) <;>
    simp_all [print, printedLine, printed, Transition.bind_apply]

theorem jumpTo_apply {reg : UInt8} (h : reg < 8) (p : Processor) :
    jumpTo reg p = ⟨.ok (.jump (p.value reg)), p, []⟩ := by
  simp [jumpTo, register_apply h, Except.map]

theorem jumpTo_apply_of_not {reg : UInt8} (h : ¬ reg < 8) (p : Processor) :
    jumpTo reg p = ⟨.error (noRegister reg), p, []⟩ := by
  simp [jumpTo, register_apply_of_not h, Except.map]

/-! ## Instructions -/

/-- The value of the second register of an arithmetic instruction, and zero if it has none. -/
def operand (p : Processor) : Option UInt8 → UInt8
  | some reg => p.value reg
  | none => 0

@[simp] theorem execute_nop (p : Processor) : execute .nop p = ⟨.ok .next, p, []⟩ := rfl

@[simp] theorem execute_halt (p : Processor) : execute .halt p = ⟨.ok .halt, p, []⟩ := rfl

theorem execute_loadImmediate (reg v : UInt8) (p : Processor) :
    execute (.loadImmediate reg v) p =
      if reg < 8 then ⟨.ok .next, p.withValue reg v, []⟩ else ⟨.error (noRegister reg), p, []⟩ := by
  by_cases h : reg < 8
  · simp [execute, Transition.bind_apply, setRegister_apply h, h]
  · simp [execute, Transition.bind_apply, setRegister_apply_of_not h, h]

theorem execute_print (reg : UInt8) (p : Processor) :
    execute (.print reg) p =
      if reg < 8 then
        ⟨if p.sink.accepts (printedLine (p.value reg)) then .ok .next else .error .output,
          p.printed (p.value reg), []⟩
      else ⟨.error (noRegister reg), p, []⟩ := by
  by_cases h : reg < 8
  · cases hfits : p.sink.accepts (printedLine (p.value reg)) <;>
      simp [execute, Transition.bind_apply, register_apply h, print_apply, Except.map, h, hfits]
  · simp [execute, Transition.bind_apply, register_apply_of_not h, h]

/-- What an arithmetic instruction does with the result of its operation. -/
def finishAlu (p : Processor) (reg : UInt8) : AluResult → Processor
  | .value v => p.withValue reg v
  | .flags f => { p with flags := f }

@[simp] theorem finishAlu_frame (p : Processor) (reg : UInt8) (result : AluResult) :
    (p.finishAlu reg result).memory = p.memory ∧ (p.finishAlu reg result).counter = p.counter ∧
      (p.finishAlu reg result).status = p.status ∧ (p.finishAlu reg result).steps = p.steps ∧
      (p.finishAlu reg result).tracing = p.tracing ∧ (p.finishAlu reg result).sink = p.sink := by
  cases result <;> exact ⟨rfl, rfl, rfl, rfl, rfl, rfl⟩

theorem execute_alu {reg : UInt8} {other : Option UInt8} (h : reg < 8)
    (hother : ∀ second ∈ other, second < 8) (op : AluOperation) (p : Processor) :
    execute (.alu op reg other) p =
      ⟨.ok .next, p.finishAlu reg (op.eval (p.value reg) (p.operand other)), []⟩ := by
  cases other with
  | none =>
    cases hv : op.eval (p.value reg) 0 <;>
      simp [execute, Transition.bind_apply, register_apply h, setRegister_apply h, Except.map,
        finishAlu, operand, hv]
  | some second =>
    have hsecond : second < 8 := hother second rfl
    cases hv : op.eval (p.value reg) (p.value second) <;>
      simp [execute, Transition.bind_apply, register_apply h, register_apply hsecond,
        setRegister_apply h, Except.map, finishAlu, operand, hv]

theorem execute_alu_of_not {reg : UInt8} (h : ¬ reg < 8) (op : AluOperation)
    (other : Option UInt8) (p : Processor) :
    execute (.alu op reg other) p = ⟨.error (noRegister reg), p, []⟩ := by
  simp [execute, Transition.bind_apply, register_apply_of_not h]

theorem execute_alu_of_second_not {reg second : UInt8} (h : reg < 8) (hsecond : ¬ second < 8)
    (op : AluOperation) (p : Processor) :
    execute (.alu op reg (some second)) p = ⟨.error (noRegister second), p, []⟩ := by
  simp [execute, Transition.bind_apply, register_apply h, register_apply_of_not hsecond]

theorem execute_push (reg : UInt8) (p : Processor) :
    execute (.push reg) p =
      if reg < 8 then
        ⟨.ok .next, p.pushed (p.pushValue reg),
          [.registerPushed reg (p.pushValue reg) (p.stackPointer - 1)]⟩
      else ⟨.error (noRegister reg), p.withStackPointer (p.stackPointer - 1), []⟩ := by
  by_cases h : reg < 8
  · simp [execute, Transition.bind_apply, pushRegister_apply h, h]
  · simp [execute, Transition.bind_apply, pushRegister_apply_of_not h, h]

theorem execute_pop (reg : UInt8) (p : Processor) :
    execute (.pop reg) p =
      if p.stackPointer = stackBase then ⟨.ok .next, p, [.stackEmpty p.counter reg]⟩
      else if reg < 8 then
        ⟨.ok .next, p.popped reg, [.popped (p.memory.cell p.stackPointer) p.stackPointer reg]⟩
      else ⟨.error (noRegister reg), p, []⟩ := by
  by_cases hempty : p.stackPointer = stackBase
  · simp [execute, Transition.bind_apply, popInto_apply_of_empty hempty, hempty]
  · by_cases h : reg < 8
    · simp [execute, Transition.bind_apply, popInto_apply hempty h, hempty, h]
    · simp [execute, Transition.bind_apply, popInto_apply_of_not hempty h, hempty, h]

theorem execute_call (reg : UInt8) (p : Processor) :
    execute (.call reg) p =
      if p.counter + 2 < 256 then
        ⟨if reg < 8 then .ok (.jump ((p.pushed (p.counter + 2).toUInt8).value reg))
          else .error (noRegister reg),
          p.pushed (p.counter + 2).toUInt8,
          [.bytePushed (p.counter + 2).toUInt8 (p.stackPointer - 1)]⟩
      else ⟨.error (.memory (.outOfBounds (p.counter + 2) 256)), p, []⟩ := by
  by_cases hfits : p.counter + 2 < 256
  · by_cases h : reg < 8
    · simp [execute, Transition.bind_apply, returnAddress, pushByte_apply, jumpTo_apply h, hfits, h,
        Except.mapError]
    · simp [execute, Transition.bind_apply, returnAddress, pushByte_apply, jumpTo_apply_of_not h,
        hfits, h, Except.mapError]
  · simp [execute, Transition.bind_apply, returnAddress, hfits, Except.mapError]

theorem execute_ret (reg : UInt8) (p : Processor) :
    execute (.ret reg) p =
      if p.stackPointer = stackBase then
        ⟨if reg < 8 then .ok (.jump (p.value reg)) else .error (noRegister reg), p,
          [.stackEmpty p.counter reg]⟩
      else if reg < 8 then
        ⟨.ok (.jump ((p.popped reg).value reg)), p.popped reg,
          [.popped (p.memory.cell p.stackPointer) p.stackPointer reg]⟩
      else ⟨.error (noRegister reg), p, []⟩ := by
  by_cases hempty : p.stackPointer = stackBase
  · by_cases h : reg < 8
    · simp [execute, Transition.bind_apply, popInto_apply_of_empty hempty, jumpTo_apply h, hempty, h]
    · simp [execute, Transition.bind_apply, popInto_apply_of_empty hempty, jumpTo_apply_of_not h,
        hempty, h]
  · by_cases h : reg < 8
    · simp [execute, Transition.bind_apply, popInto_apply hempty h, jumpTo_apply h, hempty, h]
    · simp [execute, Transition.bind_apply, popInto_apply_of_not hempty h, hempty, h]

theorem execute_jump (reg : UInt8) (p : Processor) :
    execute (.jump reg) p =
      ⟨if reg < 8 then .ok (.jump (p.value reg)) else .error (noRegister reg), p, []⟩ := by
  by_cases h : reg < 8
  · simp [execute, jumpTo_apply h, h]
  · simp [execute, jumpTo_apply_of_not h, h]

theorem execute_jumpIfEqual (reg : UInt8) (p : Processor) :
    execute (.jumpIfEqual reg) p =
      if p.flags.isEqual then execute (.jump reg) p else ⟨.ok .next, p, []⟩ := by
  cases h : p.flags.isEqual <;> simp [execute, Transition.bind_apply, h]

theorem execute_jumpIfNotEqual (reg : UInt8) (p : Processor) :
    execute (.jumpIfNotEqual reg) p =
      if p.flags.isEqual then ⟨.ok .next, p, []⟩ else execute (.jump reg) p := by
  cases h : p.flags.isEqual <;> simp [execute, Transition.bind_apply, h]

/-! ## Moving on -/

/-- Moving on changes neither the memory nor the registers. -/
@[simp] theorem follow_frame (p : Processor) (i : Instruction) (k : Continuation) :
    (p.follow i k).memory = p.memory ∧ (p.follow i k).registers = p.registers ∧
      (p.follow i k).flags = p.flags ∧ (p.follow i k).tracing = p.tracing ∧
      (p.follow i k).sink = p.sink ∧ (p.follow i k).steps = p.steps + 1 := by
  cases k <;> exact ⟨rfl, rfl, rfl, rfl, rfl, rfl⟩

@[simp] theorem stackPointer_follow (p : Processor) (i : Instruction) (k : Continuation) :
    (p.follow i k).stackPointer = p.stackPointer := by
  simp [stackPointer]

@[simp] theorem value_follow (p : Processor) (i : Instruction) (k : Continuation) (reg : UInt8) :
    (p.follow i k).value reg = p.value reg := by
  simp [value]

/-! ## The cases of success -/

/-- What an instruction that succeeds makes of a processor, where it goes on, and what it
reports. -/
inductive Effect (p : Processor) :
    Instruction → Continuation → Processor → List Event → Prop
  | nop : Effect p .nop .next p []
  | halt : Effect p .halt .halt p []
  | loadImmediate {reg v : UInt8} (h : reg < 8) :
      Effect p (.loadImmediate reg v) .next (p.withValue reg v) []
  | print {reg : UInt8} (h : reg < 8) (fits : p.sink.accepts (printedLine (p.value reg))) :
      Effect p (.print reg) .next (p.printed (p.value reg)) []
  | alu {op : AluOperation} {reg : UInt8} {other : Option UInt8} (h : reg < 8)
      (hother : ∀ second ∈ other, second < 8) :
      Effect p (.alu op reg other) .next
        (p.finishAlu reg (op.eval (p.value reg) (p.operand other))) []
  | push {reg : UInt8} (h : reg < 8) :
      Effect p (.push reg) .next (p.pushed (p.pushValue reg))
        [.registerPushed reg (p.pushValue reg) (p.stackPointer - 1)]
  | popEmpty {reg : UInt8} (empty : p.stackPointer = stackBase) :
      Effect p (.pop reg) .next p [.stackEmpty p.counter reg]
  | pop {reg : UInt8} (h : reg < 8) (nonempty : p.stackPointer ≠ stackBase) :
      Effect p (.pop reg) .next (p.popped reg)
        [.popped (p.memory.cell p.stackPointer) p.stackPointer reg]
  | call {reg : UInt8} (h : reg < 8) (fits : p.counter + 2 < 256) :
      Effect p (.call reg) (.jump ((p.pushed (p.counter + 2).toUInt8).value reg))
        (p.pushed (p.counter + 2).toUInt8)
        [.bytePushed (p.counter + 2).toUInt8 (p.stackPointer - 1)]
  | retEmpty {reg : UInt8} (h : reg < 8) (empty : p.stackPointer = stackBase) :
      Effect p (.ret reg) (.jump (p.value reg)) p [.stackEmpty p.counter reg]
  | ret {reg : UInt8} (h : reg < 8) (nonempty : p.stackPointer ≠ stackBase) :
      Effect p (.ret reg) (.jump ((p.popped reg).value reg)) (p.popped reg)
        [.popped (p.memory.cell p.stackPointer) p.stackPointer reg]
  | jump {reg : UInt8} (h : reg < 8) : Effect p (.jump reg) (.jump (p.value reg)) p []
  | equalTaken {reg : UInt8} (h : reg < 8) (equal : p.flags.isEqual) :
      Effect p (.jumpIfEqual reg) (.jump (p.value reg)) p []
  | equalPassed {reg : UInt8} (unequal : p.flags.isEqual = false) :
      Effect p (.jumpIfEqual reg) .next p []
  | unequalTaken {reg : UInt8} (h : reg < 8) (unequal : p.flags.isEqual = false) :
      Effect p (.jumpIfNotEqual reg) (.jump (p.value reg)) p []
  | unequalPassed {reg : UInt8} (equal : p.flags.isEqual) :
      Effect p (.jumpIfNotEqual reg) .next p []

/-- Each case of `Effect` is a way in which an instruction succeeds. -/
theorem Effect.execute_eq {i : Instruction} {p q : Processor} {k : Continuation}
    {log : List Event} (h : Effect p i k q log) : execute i p = ⟨.ok k, q, log⟩ := by
  cases h with
  | nop => rfl
  | halt => rfl
  | loadImmediate h => rw [execute_loadImmediate, if_pos h]
  | print h fits => rw [execute_print, if_pos h, if_pos fits]
  | alu h hother => exact execute_alu h hother _ p
  | push h => rw [execute_push, if_pos h]
  | popEmpty empty => rw [execute_pop, if_pos empty]
  | pop h nonempty => rw [execute_pop, if_neg nonempty, if_pos h]
  | call h fits => rw [execute_call, if_pos fits, if_pos h]
  | retEmpty h empty => rw [execute_ret, if_pos empty, if_pos h]
  | ret h nonempty => rw [execute_ret, if_neg nonempty, if_pos h]
  | jump h => rw [execute_jump, if_pos h]
  | equalTaken h equal => rw [execute_jumpIfEqual, if_pos equal, execute_jump, if_pos h]
  | equalPassed unequal => simp [execute_jumpIfEqual, unequal]
  | unequalTaken h unequal => simp [execute_jumpIfNotEqual, unequal, execute_jump, h]
  | unequalPassed equal => rw [execute_jumpIfNotEqual, if_pos equal]

/-- The cases of `Effect` are all the ways in which an instruction succeeds. -/
theorem Effect.of_execute {i : Instruction} {p q : Processor} {k : Continuation}
    {log : List Event} (h : execute i p = ⟨.ok k, q, log⟩) : Effect p i k q log := by
  cases i with
  | nop =>
    cases h
    exact .nop
  | halt =>
    cases h
    exact .halt
  | loadImmediate reg v =>
    rw [execute_loadImmediate] at h
    split_ifs at h with hreg <;> cases h
    exact .loadImmediate hreg
  | print reg =>
    rw [execute_print] at h
    split_ifs at h with hreg hfits <;> cases h
    exact .print hreg hfits
  | alu op reg other =>
    by_cases hreg : reg < 8
    · by_cases hother : ∀ second ∈ other, second < 8
      · rw [execute_alu hreg hother] at h
        cases h
        exact .alu hreg hother
      · push Not at hother
        obtain ⟨second, rfl, hsecond⟩ := hother
        rw [execute_alu_of_second_not hreg hsecond] at h
        cases h
    · rw [execute_alu_of_not hreg] at h
      cases h
  | push reg =>
    rw [execute_push] at h
    split_ifs at h with hreg <;> cases h
    exact .push hreg
  | pop reg =>
    rw [execute_pop] at h
    split_ifs at h with hempty hreg <;> cases h
    · exact .popEmpty hempty
    · exact .pop hreg hempty
  | call reg =>
    rw [execute_call] at h
    split_ifs at h with hfits hreg <;> cases h
    exact .call hreg hfits
  | ret reg =>
    rw [execute_ret] at h
    split_ifs at h with hempty hreg hreg <;> cases h
    · exact .retEmpty hreg hempty
    · exact .ret hreg hempty
  | jump reg =>
    rw [execute_jump] at h
    split_ifs at h with hreg <;> cases h
    exact .jump hreg
  | jumpIfEqual reg =>
    rw [execute_jumpIfEqual, execute_jump] at h
    split_ifs at h with hequal hreg <;> cases h
    · exact .equalTaken hreg hequal
    · exact .equalPassed (Bool.not_eq_true _ ▸ hequal)
  | jumpIfNotEqual reg =>
    rw [execute_jumpIfNotEqual, execute_jump] at h
    split_ifs at h with hequal hreg <;> cases h
    · exact .unequalPassed hequal
    · exact .unequalTaken hreg (Bool.not_eq_true _ ▸ hequal)

namespace Effect

variable {i : Instruction} {p q : Processor} {k : Continuation} {log : List Event}

/-- An instruction succeeds exactly when a case of `Effect` applies. -/
theorem iff_execute : Effect p i k q log ↔ execute i p = ⟨.ok k, q, log⟩ :=
  ⟨execute_eq, of_execute⟩

/-- Instructions leave it to the step to move the program counter, to stop and to count. -/
theorem frame (h : Effect p i k q log) :
    q.counter = p.counter ∧ q.status = p.status ∧ q.steps = p.steps ∧ q.tracing = p.tracing := by
  cases h with
  | alu =>
    obtain ⟨-, hcounter, hstatus, hsteps, htracing, -⟩ := finishAlu_frame p _ _
    exact ⟨hcounter, hstatus, hsteps, htracing⟩
  | _ => exact ⟨rfl, rfl, rfl, rfl⟩

/-- An instruction writes no cell but the one below the stack pointer. -/
theorem cell_eq {a : UInt8} (h : Effect p i k q log) (ha : a ≠ p.stackPointer - 1) :
    q.memory.cell a = p.memory.cell a := by
  cases h with
  | push | call => exact Memory.cell_withCell_of_ne ha
  | alu => rw [(finishAlu_frame p _ _).1]
  | _ => rfl

end Effect

end LS8.Processor
