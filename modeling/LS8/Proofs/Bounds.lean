import LS8.Opcode
import LS8.Proofs.Failure
import LS8.Proofs.LastWriter
import LS8.Proofs.Reading

/-!
# What a refusal says

An operation that is refused because of an index names the index and the bound that it has to be below.
The refusal is just if the index is not below that bound.  Where the index comes from is different for
each operation.  For most it is the argument.  A load names the last address that it reaches for, a field
the position behind it, and a call the address that it would return to.

These refusals are just, with one exception, and memories, banks and processors name the size of what was
to be accessed (`refusal_just_unless_empty_field`).  The exception is a field of no bits.  It is refused
wherever it is, in the words for a field that goes too far, and the position behind it is the one where it
starts.  A load of no bytes is a different matter.  It is refused only past the end of memory, and the
address in front of its start, which it names, is no address of the memory either.
-/

namespace LS8

/-! ## Refusals -/

/-- What is said of an index that is refused: the index, and the bound that it has to be below. -/
structure Refusal where
  index : Nat
  bound : Nat
  deriving DecidableEq, Repr

namespace Refusal

/-- The index is really not below the bound. -/
def Just (r : Refusal) : Prop := r.bound ≤ r.index

instance decidableJust (r : Refusal) : Decidable r.Just :=
  inferInstanceAs (Decidable (r.bound ≤ r.index))

/-- The bound is the size of what was to be accessed as well. -/
structure JustFor (size : Nat) (r : Refusal) : Prop where
  just : r.Just
  bound : r.bound = size

end Refusal

def MemoryError.refusal : MemoryError → Refusal
  | .outOfBounds address size => ⟨address, size⟩

def RegisterError.refusal : RegisterError → Refusal
  | .invalidRegister index count => ⟨index, count⟩

def OpcodeError.refusal : OpcodeError → Refusal
  | .indexOutOfBounds _ index bound => ⟨index, bound⟩

/-- What a fault says of an index, if it says anything, is just for the memory or the registers. -/
def Fault.Just : Fault → Prop
  | .memory e | .decode (.memory e) => e.refusal.JustFor 256
  | .register e => e.refusal.JustFor 8
  | .decode (.unknownInstruction ..) | .decode (.unsupportedOperation ..) | .output | .stepLimit _ =>
    True

/-! ## Memories -/

namespace Memory

variable {size address : Nat} {m : Memory size} {a : Action} {e : MemoryError}

/-- An action for which there is no room reaches past the end with its last address, a load of no bytes
included. -/
theorem Action.le_last (h : ¬ a.Fits size) : size ≤ a.last := by
  cases a with
  | read address | write address _ => exact Nat.le_of_not_lt h
  | load address data => exact Nat.le_sub_one_of_lt (Nat.lt_of_not_le h)

/-- An action fails exactly if there is no room for it. -/
theorem perform_eq_error_iff :
    (perform a m).result = .error e ↔ ¬ a.Fits size ∧ e = .outOfBounds a.last size := by
  by_cases h : a.Fits size
  · cases a with
    | read address => simp [perform_read h, h]
    | write address value => simp [perform_write h, h]
    | load address data => simp [perform_load h, h]
  · simp [perform_of_not_fits h, h, eq_comm]

theorem perform_refusal (h : (perform a m).result = .error e) : e.refusal.JustFor size := by
  obtain ⟨hnot, rfl⟩ := perform_eq_error_iff.mp h
  exact ⟨Action.le_last hnot, rfl⟩

theorem read_refusal (h : m.read address = .error e) : e.refusal.JustFor size := by
  rw [read] at h
  split_ifs at h with hlt
  cases h
  exact ⟨Nat.le_of_not_lt hlt, rfl⟩

end Memory

/-! ## Banks of registers -/

namespace Registers

variable {count index : Nat} {r : Registers count} {e : RegisterError}

theorem get_refusal (h : r.get index = .error e) : e.refusal.JustFor count := by
  rw [get] at h
  split_ifs at h with hlt
  cases h
  exact ⟨Nat.le_of_not_lt hlt, rfl⟩

theorem set_refusal {value : UInt8} (h : r.set index value = .error e) :
    e.refusal.JustFor count := by
  rw [set] at h
  split_ifs at h with hlt
  cases h
  exact ⟨Nat.le_of_not_lt hlt, rfl⟩

end Registers

/-! ## Opcodes -/

namespace Opcode

variable {o : Opcode} {index lsb count : Nat} {e : OpcodeError}

theorem bit_refusal (h : o.bit index = .error e) : e.refusal.JustFor width := by
  rw [bit, extract] at h
  split_ifs at h with hlt
  · cases h
  · cases h
    exact ⟨Nat.le_of_not_lt hlt, rfl⟩

/-- A field is refused if it has no bits or goes past the end of the byte, and always in the same
words. -/
theorem field_eq_error_iff :
    o.field lsb count = .error e ↔
      (count = 0 ∨ width < lsb + count) ∧ e = .indexOutOfBounds .field (lsb + count) (width + 1) := by
  rw [field]
  split_ifs with h
  · simp [h, eq_comm]
  · -- A field that starts behind the byte has gone past its end before.
    have hlt : lsb < width := by omega
    simp [extract, hlt, h]

/-- The refusal of a field that has bits is just, that of one that has none only behind the byte. -/
theorem field_refusal_just_iff (h : o.field lsb count = .error e) :
    e.refusal.Just ↔ count ≠ 0 ∨ width < lsb := by
  obtain ⟨hrefused, rfl⟩ := field_eq_error_iff.mp h
  show width + 1 ≤ lsb + count ↔ count ≠ 0 ∨ width < lsb
  omega

end Opcode

/-! ## Steps of a processor -/

namespace Processor

variable {p q : Processor} {i : Instruction} {e : Fault} {log : List Event}

theorem noRegister_just {reg : UInt8} (h : ¬ reg < 8) : (noRegister reg).Just :=
  ⟨Nat.le_of_not_lt fun hlt => h (UInt8.lt_iff_toNat_lt.mpr hlt), rfl⟩

theorem Failure.just (h : Failure p i e q log) : e.Just := by
  cases h with
  | refused => trivial
  | callAddress hfull => exact ⟨Nat.le_of_not_lt hfull, rfl⟩
  | aluSecond _ hsecond => exact noRegister_just hsecond
  | _ hreg => exact noRegister_just hreg

/-- Decoding fails with an error of its own or with one of memory. -/
theorem decode_just {d : DecodeError}
    (h : (Decoding.instruction p.memory.read p.counter).result = .error d) :
    (Fault.decode d).Just := by
  have hends := Decoding.ends_instruction p.memory.read p.counter
  generalize Decoding.instruction p.memory.read p.counter = decoding at hends h
  cases hends with
  | complete => cases h
  | cutOff _ _ _ _ he =>
    cases h
    exact Memory.read_refusal he
  | unknown =>
    cases h
    split_ifs <;> trivial

theorem step_just (h : (step p).result = .error e) : e.Just := by
  cases hrun : p.status with
  | halted => simp [step_of_halted hrun] at h
  | running =>
    rw [step_of_running hrun] at h
    cases hdec : (Decoding.instruction p.memory.read p.counter).result with
    | error d =>
      rw [hdec] at h
      cases h
      exact decode_just hdec
    | ok i =>
      rcases hout : execute i p with ⟨e' | k, q, log⟩
      · simp only [hdec, hout] at h
        cases h
        exact (Failure.of_execute hout).just
      · simp [hdec, hout] at h

end Processor

/-! ## All refusals -/

/-- **A refusal is just, unless it is that of an empty field.**  Whatever has been done before, when an
action on a memory, an access to a register or a reading of a bit is refused, the index named is not below
the bound named, and the bound is the number of cells, of registers or of bits.  The same goes for what a
step of a processor says of its memory and its registers.  The refusal of a field is just exactly if the
field has bits or starts behind the end of the byte, so that of a field of no bits within the byte, or
right behind it, is not. -/
theorem refusal_just_unless_empty_field {size count : Nat} (m : Memory size) (r : Registers count)
    (o : Opcode) (p : Processor) :
    (∀ a e, (Memory.perform a m).result = .error e → e.refusal.JustFor size) ∧
    (∀ index e, r.get index = .error e → e.refusal.JustFor count) ∧
    (∀ index value e, r.set index value = .error e → e.refusal.JustFor count) ∧
    (∀ index e, o.bit index = .error e → e.refusal.JustFor Opcode.width) ∧
    (∀ lsb n e, o.field lsb n = .error e →
      (e.refusal.Just ↔ n ≠ 0 ∨ Opcode.width < lsb)) ∧
    ∀ e, (Processor.step p).result = .error e → e.Just :=
  ⟨fun _ _ => Memory.perform_refusal, fun _ _ => Registers.get_refusal,
    fun _ _ _ => Registers.set_refusal, fun _ _ => Opcode.bit_refusal,
    fun _ _ _ => Opcode.field_refusal_just_iff, fun _ => Processor.step_just⟩

/-- Refusals for other reasons than a large index: a load of no bytes, and fields of no bits behind the
byte and in it. -/
theorem refusal_just_unless_empty_field_nothing :
    let m : Memory 4 := .zero 4
    let o : Opcode := ⟨0xA7⟩
    let p := Processor.loaded .unlimited [0x50, 9]
    ((Memory.perform (.load 9 []) m).result = .error (.outOfBounds 8 4) ∧
      o.field 9 0 = .error (.indexOutOfBounds .field 9 9) ∧
      o.field 3 0 = .error (.indexOutOfBounds .field 3 9) ∧
      (Processor.step p).result = .error (.register (.invalidRegister 9 8))) ∧
    (⟨8, 4⟩ : Refusal).JustFor 4 ∧ (⟨9, 9⟩ : Refusal).Just ∧ ¬ (⟨3, 9⟩ : Refusal).Just ∧
      (⟨9, 8⟩ : Refusal).JustFor 8 := by
  intro m o p
  have hload : (Memory.perform (.load 9 []) m).result = .error (.outOfBounds 8 4) := by decide
  have hbehind : o.field 9 0 = .error (.indexOutOfBounds .field 9 9) := by decide
  have hinside : o.field 3 0 = .error (.indexOutOfBounds .field 3 9) := by decide
  have hstep : (Processor.step p).result = .error (.register (.invalidRegister 9 8)) := by
    decide +kernel
  obtain ⟨hmemory, -, -, -, hfield, hfault⟩ :=
    refusal_just_unless_empty_field m (Registers.zero 0) o p
  exact ⟨⟨hload, hbehind, hinside, hstep⟩, hmemory _ _ hload, (hfield _ _ _ hbehind).mpr (by decide),
    fun hjust => absurd ((hfield _ _ _ hinside).mp hjust) (by decide), hfault _ hstep⟩

/-- The empty field right behind the byte is refused because 8 is said not to be below 9. -/
theorem empty_field_refusal_unjust :
    ∃ e, (Opcode.mk 0xA7).field 8 0 = .error e ∧
      e.message = "field index 8 out of bounds, must be [0, 9)" ∧ e.refusal = ⟨8, 9⟩ ∧
      ¬ e.refusal.Just :=
  ⟨.indexOutOfBounds .field 8 9, by decide, by decide +kernel, rfl, by decide⟩

end LS8
