import LS8.Proofs.Contents
import LS8.Proofs.Execution

/-!
# A machine with a list for a stack

The machine that programs are written for has seven registers and a stack, and knows no memory.  The
stack is a list of bytes, the newest first, and it has no end.  Register 7 is no register of this
machine: reading it gives the stack pointer that goes with the depth of the list.

`Represents` is the relation to the processor, whose stack is a stretch of the memory that the program
lies in.  It survives a push to a stack of at most 255 bytes and a pop from one.  Deeper than that it
does not go: 256 bytes fill the memory, the stack pointer is at its base again, and the processor takes
the stack to be empty.

Arithmetic is that of natural numbers here, cut to a byte at the end.  `AluOperation.eval_eq` says
that the arithmetic unit computes the same.
-/

namespace LS8

/-! ## Arithmetic -/

namespace AluOperation

/-- What an operation makes of two numbers below 256.  Only the remainder modulo 256 matters. -/
def number : AluOperation → Nat → Nat → Nat
  | .add, a, b => a + b
  | .sub, a, b => a + (256 - b)
  | .mul, a, b => a * b
  | .inc, a, _ => a + 1
  | .dec, a, _ => a + 255
  | .cmp, a, _ => a
  | .and, a, b => a &&& b
  | .not, a, _ => 255 - a
  | .or, a, b => a ||| b
  | .xor, a, b => a ^^^ b
  | .shl, a, b => a * 2 ^ b
  | .shr, a, b => a / 2 ^ b

theorem shiftLeft_eq (a b : UInt8) :
    (if b < 8 then a <<< b else 0) = (a.toNat * 2 ^ b.toNat).toUInt8 := by
  apply UInt8.toNat_inj.mp
  by_cases h : b < 8
  · have hb : b.toNat < 8 := UInt8.lt_iff_toNat_lt.mp h
    rw [if_pos h, UInt8.toNat_shiftLeft, Nat.mod_eq_of_lt hb, Nat.shiftLeft_eq]
    rfl
  · have hb : 8 ≤ b.toNat := Nat.not_lt.mp fun hlt => h (UInt8.lt_iff_toNat_lt.mpr hlt)
    have hdvd : 256 ∣ a.toNat * 2 ^ b.toNat :=
      Dvd.dvd.mul_left (Nat.pow_dvd_pow 2 hb) a.toNat
    rw [if_neg h]
    exact (Nat.mod_eq_zero_of_dvd hdvd).symm

theorem shiftRight_eq (a b : UInt8) :
    (if b < 8 then a >>> b else 0) = (a.toNat / 2 ^ b.toNat).toUInt8 := by
  apply UInt8.toNat_inj.mp
  have hlt : a.toNat / 2 ^ b.toNat < 256 := Nat.lt_of_le_of_lt (Nat.div_le_self ..) a.toNat_lt
  have hmod : (a.toNat / 2 ^ b.toNat).toUInt8.toNat = a.toNat / 2 ^ b.toNat := by
    simpa using Nat.mod_eq_of_lt hlt
  rw [hmod]
  by_cases h : b < 8
  · have hb : b.toNat < 8 := UInt8.lt_iff_toNat_lt.mp h
    rw [if_pos h, UInt8.toNat_shiftRight, Nat.mod_eq_of_lt hb, Nat.shiftRight_eq_div_pow]
  · have hb : 8 ≤ b.toNat := Nat.not_lt.mp fun hlt => h (UInt8.lt_iff_toNat_lt.mpr hlt)
    have hpow : 2 ^ 8 ≤ 2 ^ b.toNat := Nat.pow_le_pow_right (by decide) hb
    rw [if_neg h, Nat.div_eq_of_lt (Nat.lt_of_lt_of_le a.toNat_lt hpow)]
    rfl

theorem sub_eq (a b : UInt8) : a - b = (a.toNat + (256 - b.toNat)).toUInt8 := by
  apply UInt8.toNat_inj.mp
  rw [UInt8.toNat_sub, Nat.add_comm]
  rfl

theorem not_eq (a : UInt8) : ~~~a = (255 - a.toNat).toUInt8 := by
  have ha : a.toNat < 256 := a.toNat_lt
  apply UInt8.toNat_inj.mp
  rw [UInt8.toNat_not]
  have hsize : UInt8.size - 1 - a.toNat = 255 - a.toNat := rfl
  have hmod : (255 - a.toNat).toUInt8.toNat = 255 - a.toNat := Nat.mod_eq_of_lt (by omega)
  rw [hsize, hmod]

theorem compare_eq (a b : UInt8) : Flags.compare a b = ⟨some (compare a.toNat b.toNat)⟩ := by
  have hlt : a < b ↔ a.toNat < b.toNat := UInt8.lt_iff_toNat_lt
  have heq : a = b ↔ a.toNat = b.toNat := UInt8.toNat_inj.symm
  rcases Nat.lt_trichotomy a.toNat b.toNat with h | h | h
  · rw [Flags.compare, if_pos (hlt.mpr h), Nat.compare_eq_lt.mpr h]
  · have hnot : ¬ a < b := hlt.not.mpr (by omega)
    rw [Flags.compare, if_neg hnot, if_pos (heq.mpr h), Nat.compare_eq_eq.mpr h]
  · have hnot : ¬ a < b := hlt.not.mpr (by omega)
    have hne : a ≠ b := heq.not.mpr (by omega)
    rw [Flags.compare, if_neg hnot, if_neg hne, Nat.compare_eq_gt.mpr h]

/-- The arithmetic unit compares and calculates as with natural numbers, modulo 256. -/
theorem eval_eq (op : AluOperation) (a b : UInt8) :
    op.eval a b =
      if op = .cmp then .flags ⟨some (compare a.toNat b.toNat)⟩
      else .value (op.number a.toNat b.toNat).toUInt8 := by
  cases op with
  | cmp => simp [eval, compare_eq]
  | sub => simp only [eval, number, sub_eq, reduceCtorEq, if_false]
  | dec => simpa [eval, number] using sub_eq a 1
  | not => simp only [eval, number, not_eq, reduceCtorEq, if_false]
  | shl => simp [eval, number, shiftLeft_eq]
  | shr => simp [eval, number, shiftRight_eq]
  | _ => simp [eval, number]

end AluOperation

/-! ## The machine -/

/-- A machine whose stack is a list.  Its general registers are R0 to R6, and the stack has the newest
byte first. -/
structure ListMachine where
  registers : Registers 7
  stack : List UInt8
  flags : Flags
  output : String
  deriving DecidableEq, Repr

namespace ListMachine

/-- A new machine. -/
def initial : ListMachine := ⟨Registers.zero 7, [], Flags.clear, ""⟩

/-- The stack pointer that goes with a stack of so many bytes. -/
def pointerAt (depth : Nat) : UInt8 := Processor.stackBase - depth.toUInt8

/-- The stack pointer that goes with the stack. -/
def pointer (m : ListMachine) : UInt8 := pointerAt m.stack.length

/-- The contents of a register. -/
def read (m : ListMachine) (reg : UInt8) : UInt8 :=
  if reg = 7 then m.pointer else m.registers.values[reg.toNat]?.getD 0

/-- The machine with a new value in a general register. -/
def write (m : ListMachine) (reg v : UInt8) : ListMachine :=
  { m with registers := ⟨m.registers.values.setIfInBounds reg.toNat v⟩ }

/-- Puts a byte on the stack. -/
def push (m : ListMachine) (v : UInt8) : ListMachine := { m with stack := v :: m.stack }

/-- The value that a push of a register puts on the stack.  It is the new stack pointer if that is
pushed. -/
def pushValue (m : ListMachine) (reg : UInt8) : UInt8 :=
  if reg = 7 then pointerAt (m.stack.length + 1) else m.read reg

/-- Takes the newest byte from the stack into a general register.  On an empty stack nothing
happens. -/
def pop (m : ListMachine) (reg : UInt8) : ListMachine :=
  match m.stack with
  | [] => m
  | v :: rest => { m with stack := rest }.write reg v

theorem pointerAt_zero : pointerAt 0 = Processor.stackBase := rfl

theorem pointerAt_succ (depth : Nat) : pointerAt (depth + 1) = pointerAt depth - 1 := by
  simp only [pointerAt, Nat.toUInt8, UInt8.ofNat_add]
  grind

/-- A stack of 256 bytes has the stack pointer of an empty one. -/
theorem pointerAt_256 : pointerAt 256 = Processor.stackBase := rfl

theorem pointerAt_ne {depth : Nat} (hpos : 0 < depth) (hdepth : depth ≤ 255) :
    pointerAt depth ≠ Processor.stackBase := by
  intro hbase
  have hzero : depth.toUInt8 = 0 := by
    have hsub : Processor.stackBase - pointerAt depth = depth.toUInt8 := by
      rw [pointerAt]
      grind
    rw [← hsub, hbase, UInt8.sub_self]
  have hnat : depth.toUInt8.toNat = depth := Nat.mod_eq_of_lt (show depth < 256 by omega)
  rw [hzero] at hnat
  exact hpos.ne hnat

theorem read_write_self {reg : UInt8} (h : reg < 7) (m : ListMachine) (v : UInt8) :
    (m.write reg v).read reg = v := by
  have h' : reg.toNat < 7 := UInt8.lt_iff_toNat_lt.mp h
  have hne : reg ≠ 7 := UInt8.ne_of_lt h
  simp [read, write, hne, h']

theorem read_write_of_ne {reg other : UInt8} (h : other ≠ reg) (m : ListMachine) (v : UInt8) :
    (m.write reg v).read other = m.read other := by
  have h' : reg.toNat ≠ other.toNat := fun e => h (UInt8.toNat_inj.mp e.symm)
  simp [read, write, pointer, h']

theorem read_of_ne {m : ListMachine} {reg : UInt8} (h : reg ≠ 7) :
    m.read reg = m.registers.values[reg.toNat]?.getD 0 := if_neg h

end ListMachine

/-! ## The machine in a processor -/

namespace Processor

/-- The list machine with the registers and flags of a processor and an empty stack. -/
def machine (p : Processor) : ListMachine where
  registers := ⟨Vector.ofFn fun i : Fin 7 => p.registers.values[i.val]⟩
  stack := []
  flags := p.flags
  output := ""

/-- The general registers and the flags of a processor are those of a list machine, its stack pointer
is as far from the base as the stack is deep, modulo 256, and the cells from there on have the bytes of
the stack, the newest first. -/
structure Represents (p : Processor) (m : ListMachine) : Prop where
  general : ∀ reg < 7, p.value reg = m.read reg
  pointer : p.stackPointer = m.pointer
  cells : p.memory.Holds m.pointer m.stack
  flags : p.flags = m.flags

theorem lt_seven_iff {reg : UInt8} : reg < 7 ↔ reg < 8 ∧ reg ≠ 7 := by
  have hseven : reg = 7 ↔ reg.toNat = 7 := UInt8.toNat_inj.symm
  have hseven' : reg < 7 ↔ reg.toNat < 7 := UInt8.lt_iff_toNat_lt
  have height : reg < 8 ↔ reg.toNat < 8 := UInt8.lt_iff_toNat_lt
  rw [hseven', height, Ne, hseven]
  omega

/-- A processor whose stack pointer stands at the base represents a machine with an empty stack. -/
theorem represents_machine {p : Processor} (h : p.stackPointer = stackBase) :
    p.Represents p.machine := by
  refine ⟨fun reg hreg => ?_, h.trans ListMachine.pointerAt_zero.symm, trivial, rfl⟩
  have hlt : reg.toNat < 7 := UInt8.lt_iff_toNat_lt.mp hreg
  have hne : reg ≠ 7 := UInt8.ne_of_lt hreg
  rw [ListMachine.read_of_ne hne]
  simp [value, machine, hlt, Nat.lt_succ_of_lt hlt]

namespace Represents

variable {p q : Processor} {m : ListMachine} {reg : UInt8}

/-- The two machines agree on every register, the stack pointer included. -/
theorem value_eq (h : p.Represents m) (hreg : reg < 8) : p.value reg = m.read reg := by
  by_cases hseven : reg = 7
  · rw [hseven, value_seven, h.pointer, ListMachine.read, if_pos rfl]
  · have hlt : reg < 7 := lt_seven_iff.mpr ⟨hreg, hseven⟩
    exact h.general reg hlt

/-- Nothing but memory, registers and flags counts. -/
theorem congr (h : p.Represents m) (hmemory : q.memory = p.memory)
    (hregisters : q.registers = p.registers) (hflags : q.flags = p.flags) : q.Represents m := by
  have hvalue : ∀ reg, q.value reg = p.value reg := by
    intro reg
    rw [value, hregisters, value]
  have hpointer : q.stackPointer = p.stackPointer := by
    rw [stackPointer, hregisters, stackPointer]
  refine ⟨fun reg hreg => ?_, hpointer.trans h.pointer, ?_, hflags.trans h.flags⟩
  · rw [hvalue, h.general reg hreg]
  · rw [hmemory]
    exact h.cells

theorem withValue (h : p.Represents m) (hreg : reg < 7) (v : UInt8) :
    (p.withValue reg v).Represents (m.write reg v) := by
  have hne : reg ≠ 7 := UInt8.ne_of_lt hreg
  have hlt : reg < 8 := UInt8.lt_trans hreg (by decide)
  refine ⟨fun other hother => ?_, ?_, h.cells, h.flags⟩
  · by_cases heq : other = reg
    · rw [heq, value_withValue_self hlt, ListMachine.read_write_self hreg]
    · rw [value_withValue_of_ne heq, ListMachine.read_write_of_ne heq, h.general other hother]
  · rw [stackPointer_withValue_of_ne hne]
    exact h.pointer

/-- A push to a stack of at most 255 bytes keeps every one of them. -/
theorem pushed (h : p.Represents m) (hroom : m.stack.length ≤ 255) (v : UInt8) :
    (p.pushed v).Represents (m.push v) := by
  have hpointer : (m.push v).pointer = m.pointer - 1 := ListMachine.pointerAt_succ _
  refine ⟨fun reg hreg => ?_, ?_, ?_, h.flags⟩
  · have hne : reg ≠ 7 := UInt8.ne_of_lt hreg
    rw [value_pushed_of_ne hne, h.general reg hreg, ListMachine.read_of_ne hne,
      ListMachine.read_of_ne hne]
    rfl
  · rw [stackPointer_pushed, h.pointer, hpointer]
  · rw [memory_pushed, h.pointer, hpointer]
    refine ⟨Memory.cell_withCell_self .., ?_⟩
    -- Counted upwards from the old top, the new cell is the last of all, after 255 others.
    have hdistance : (m.pointer - 1 - m.pointer).toNat = 255 := by
      have : m.pointer - 1 - m.pointer = 255 := by grind
      rw [this]
      rfl
    rw [UInt8.sub_add_cancel]
    exact h.cells.withCell (hdistance ▸ hroom)

theorem pushValue_eq (h : p.Represents m) (hreg : reg < 8) :
    p.pushValue reg = m.pushValue reg := by
  rw [Processor.pushValue_eq, ListMachine.pushValue, h.pointer, h.value_eq hreg,
    ListMachine.pointerAt_succ, ListMachine.pointer]

theorem stackPointer_ne (h : p.Represents m) (hne : m.stack ≠ [])
    (hdepth : m.stack.length ≤ 255) : p.stackPointer ≠ stackBase := by
  rw [h.pointer]
  exact ListMachine.pointerAt_ne (List.length_pos_iff.mpr hne) hdepth

/-- A pop takes the newest byte. -/
theorem popped {v : UInt8} {rest : List UInt8} (h : p.Represents m) (hstack : m.stack = v :: rest)
    (hreg : reg < 7) :
    p.memory.cell p.stackPointer = v ∧ (p.popped reg).Represents (m.pop reg) := by
  have hne : reg ≠ 7 := UInt8.ne_of_lt hreg
  have hcells := h.cells
  rw [hstack] at hcells
  obtain ⟨htop, hrest⟩ := hcells
  rw [← h.pointer] at htop
  have hpop : m.pop reg = ({ m with stack := rest } : ListMachine).write reg v := by
    rw [ListMachine.pop, hstack]
  have hpointer : (m.pop reg).pointer = m.pointer + 1 := by
    rw [hpop, ListMachine.pointer, ListMachine.pointer, hstack, List.length_cons,
      ListMachine.pointerAt_succ, UInt8.sub_add_cancel]
    rfl
  refine ⟨htop, ⟨fun other hother => ?_, ?_, ?_, ?_⟩⟩
  · have hother' : other ≠ 7 := UInt8.ne_of_lt hother
    by_cases heq : other = reg
    · rw [heq, value_popped_self (UInt8.lt_trans hreg (by decide)) hne, htop, hpop,
        ListMachine.read_write_self hreg]
    · rw [value_popped_of_ne heq hother', hpop, ListMachine.read_write_of_ne heq,
        h.general other hother, ListMachine.read_of_ne hother', ListMachine.read_of_ne hother']
  · rw [stackPointer_popped_of_ne hne, h.pointer, hpointer]
  · rw [hpointer, hpop]
    exact hrest
  · rw [hpop]
    exact h.flags

end Represents

end Processor

end LS8
