import LS8.Proofs.Failure
import LS8.Proofs.Reading
import LS8.Proofs.Steps

/-!
# A push and the pop behind it

A pop that follows a push puts the value that was pushed into its register and moves the stack pointer
back.  Three things can come in between.  The push writes into memory, where the pop itself may lie, so
the cell below the stack pointer must not hold the pop.  The stack pointer moves before its register is
read, so what a push of the stack pointer stores is the new address.  And the stack counts as empty when
the stack pointer stands at its base, wherever it came from: one cell above the base, the push brings it
there, and the pop is skipped.

These are the only exceptions, and only the last of them loses the value (`push_pop_restores`).
Addresses wrap around, so nothing is special about the ends of memory.
-/

namespace LS8.Processor

variable {p : Processor} {i : Instruction} {reg dest : UInt8}

/-! ## The push -/

/-- The processor attempts the instruction that lies at its program counter. -/
theorem attempts_of_gives (hrun : p.status = .running) (hi : i.WellFormed)
    (h : Fetch.Gives p.memory.read p.counter i.encode) : p.Attempts i :=
  ⟨hrun, by rw [(Decoding.Ends.complete hi h).instruction_eq]⟩

/-- The processor after a step that pushes a register. -/
def afterPush (p : Processor) (reg : UInt8) : Processor :=
  (p.pushed (p.pushValue reg)).follow (.push reg) .next

theorem afterPush_frame (p : Processor) (reg : UInt8) :
    (p.afterPush reg).status = p.status ∧ (p.afterPush reg).counter = p.counter + 2 ∧
      (p.afterPush reg).flags = p.flags ∧ (p.afterPush reg).sink = p.sink ∧
      (p.afterPush reg).memory = p.memory.withCell (p.stackPointer - 1) (p.pushValue reg) ∧
      (p.afterPush reg).stackPointer = p.stackPointer - 1 :=
  ⟨rfl, rfl, rfl, rfl, rfl, stackPointer_pushed p (p.pushValue reg)⟩

theorem value_afterPush_of_ne {other : UInt8} (h : other ≠ 7) (p : Processor) (reg : UInt8) :
    (p.afterPush reg).value other = p.value other :=
  value_pushed_of_ne h p (p.pushValue reg)

theorem Attempts.step_push (h : p.Attempts (.push reg)) (hreg : reg < 8) :
    (step p).result = .ok .running ∧ (step p).state = p.afterPush reg := by
  rw [h.step_eq (.push hreg)]
  exact ⟨congrArg Except.ok h.1, rfl⟩

/-- A pop behind a push is attempted next, unless the push has written into it. -/
theorem Attempts.pop_behind (h : p.Attempts (.push reg))
    (hpop : Fetch.Gives p.memory.read (p.counter + 2) (Instruction.pop dest).encode)
    (hfirst : (p.stackPointer - 1).toNat ≠ p.counter + 2)
    (hsecond : (p.stackPointer - 1).toNat ≠ p.counter + 3) :
    (p.afterPush reg).Attempts (.pop dest) := by
  obtain ⟨hstatus, hcounter, -, -, hmemory, -⟩ := p.afterPush_frame reg
  refine attempts_of_gives (hstatus.trans h.1) trivial ?_
  rw [hcounter, hmemory]
  refine hpop.congr fun a ha => Memory.read_congr (Memory.cell_withCell_of_ne ?_)
  intro htop
  have hlt : a < 256 := hpop.lt ha
  have htop' : (p.stackPointer - 1).toNat = a := by
    rw [← htop]
    simpa using Nat.mod_eq_of_lt hlt
  have hplace : a = p.counter + 2 ∨ a = p.counter + 3 := by
    rw [List.mem_range'_1] at ha
    simp only [Instruction.encode, Instruction.operands, List.length_cons, List.length_nil] at ha
    omega
  rcases hplace with rfl | rfl
  · exact hfirst htop'
  · exact hsecond htop'

/-! ## The pop -/

theorem sub_one_eq_stackBase_iff {a : UInt8} : a - 1 = stackBase ↔ a = 0xF5 := by
  rw [sub_eq_iff_eq_add]
  rfl

/-- The processor after the pop that follows a push. -/
def afterPushPop (p : Processor) (reg dest : UInt8) : Processor :=
  let q := p.afterPush reg
  (if p.stackPointer = 0xF5 then q else q.popped dest).follow (.pop dest) .next

theorem Attempts.step_pop_afterPush (h : (p.afterPush reg).Attempts (.pop dest)) (hdest : dest < 8) :
    (step (p.afterPush reg)).result = .ok .running ∧
      (step (p.afterPush reg)).state = p.afterPushPop reg dest ∧
      (.stackEmpty (p.counter + 2) dest ∈ (step (p.afterPush reg)).log ↔ p.stackPointer = 0xF5) := by
  obtain ⟨-, -, -, -, -, hpointer⟩ := p.afterPush_frame reg
  by_cases hempty : p.stackPointer = 0xF5
  · have hbase : (p.afterPush reg).stackPointer = stackBase := by
      rw [hpointer, sub_one_eq_stackBase_iff, hempty]
    rw [h.step_eq (.popEmpty hbase), afterPushPop, if_pos hempty]
    refine ⟨congrArg Except.ok h.1, rfl, ?_⟩
    simp [hempty, afterPush_frame]
  · have hbase : (p.afterPush reg).stackPointer ≠ stackBase := by
      rwa [hpointer, Ne, sub_one_eq_stackBase_iff]
    rw [h.step_eq (.pop hdest hbase), afterPushPop, if_neg hempty]
    refine ⟨congrArg Except.ok h.1, rfl, ?_⟩
    unfold announcement
    split_ifs <;> simp [hempty]

theorem afterPushPop_frame (p : Processor) (reg dest : UInt8) :
    (p.afterPushPop reg dest).counter = p.counter + 4 ∧
      (p.afterPushPop reg dest).flags = p.flags ∧ (p.afterPushPop reg dest).sink = p.sink ∧
      (p.afterPushPop reg dest).memory = p.memory.withCell (p.stackPointer - 1) (p.pushValue reg) := by
  unfold afterPushPop
  split_ifs <;> exact ⟨rfl, rfl, rfl, rfl⟩

/-- The value that was pushed is delivered. -/
theorem afterPushPop_of_ne (hpointer : p.stackPointer ≠ 0xF5) (hdest : dest < 8) (hne : dest ≠ 7)
    (reg : UInt8) :
    (p.afterPushPop reg dest).value dest = p.pushValue reg ∧
      (p.afterPushPop reg dest).stackPointer = p.stackPointer ∧
      ∀ other, other ≠ dest → other ≠ 7 → (p.afterPushPop reg dest).value other = p.value other := by
  obtain ⟨-, -, -, -, hmemory, htop⟩ := p.afterPush_frame reg
  simp only [afterPushPop, if_neg hpointer, value_follow, stackPointer_follow]
  refine ⟨?_, ?_, fun other hother hseven => ?_⟩
  · rw [value_popped_self hdest hne, htop, hmemory, Memory.cell_withCell_self]
  · rw [stackPointer_popped_of_ne hne, htop, UInt8.sub_add_cancel]
  · rw [value_popped_of_ne hother hseven, value_afterPush_of_ne hseven]

/-- One cell above the base, the pop is skipped. -/
theorem afterPushPop_of_eq (hpointer : p.stackPointer = 0xF5) (reg dest : UInt8) :
    (p.afterPushPop reg dest).stackPointer = 0xF4 ∧
      ∀ other ≠ 7, (p.afterPushPop reg dest).value other = p.value other := by
  obtain ⟨-, -, -, -, -, htop⟩ := p.afterPush_frame reg
  simp only [afterPushPop, if_pos hpointer, value_follow, stackPointer_follow]
  refine ⟨?_, fun other hother => value_afterPush_of_ne hother p reg⟩
  rw [htop, sub_one_eq_stackBase_iff.mpr hpointer]
  rfl

/-! ## Both steps -/

/-- **A pop undoes the push in front of it, for every stack pointer but one.**  If the push does not
write into the pop, both steps succeed.  They leave the value that was pushed in the cell below the stack
pointer and no trace in any other cell.  The value gets into the register of the pop, the stack pointer
comes back, and no other register changes, unless the push has brought the stack pointer to its base;
then, and only then, the pop is skipped.  A push of the stack pointer pushes its new value. -/
theorem push_pop_restores (hrun : p.status = .running) (hreg : reg < 8) (hdest : dest < 8)
    (hne : dest ≠ 7)
    (hbytes : Fetch.Gives p.memory.read p.counter
      ((Instruction.push reg).encode ++ (Instruction.pop dest).encode))
    (hfirst : (p.stackPointer - 1).toNat ≠ p.counter + 2)
    (hsecond : (p.stackPointer - 1).toNat ≠ p.counter + 3) :
    let top := p.stackPointer - 1
    let v := if reg = 7 then top else p.value reg
    let q := p.after 2
    p.Lasts 2 ∧ q.counter = p.counter + 4 ∧ q.flags = p.flags ∧ q.sink = p.sink ∧
    q.memory.cell top = v ∧ (∀ a ≠ top, q.memory.cell a = p.memory.cell a) ∧
    (p.stackPointer ≠ 0xF5 →
      q.value dest = v ∧ q.stackPointer = p.stackPointer ∧
        ∀ other, other ≠ dest → other ≠ 7 → q.value other = p.value other) ∧
    (p.stackPointer = 0xF5 →
      q.stackPointer = 0xF4 ∧ ∀ other ≠ 7, q.value other = p.value other) ∧
    (.stackEmpty (p.counter + 2) dest ∈ (step (p.after 1)).log ↔ p.stackPointer = 0xF5) ∧
    (q.stackPointer = p.stackPointer ↔ p.stackPointer ≠ 0xF5) := by
  intro top v q
  obtain ⟨hpush, hpop⟩ := Fetch.gives_append.mp hbytes
  have hattempt : p.Attempts (.push reg) := attempts_of_gives hrun trivial hpush
  obtain ⟨hresult, hstate⟩ := hattempt.step_push hreg
  have hnext := hattempt.pop_behind hpop hfirst hsecond
  obtain ⟨hresult', hstate', hskipped⟩ := hnext.step_pop_afterPush hdest
  have hafter : p.after 1 = p.afterPush reg := hstate
  have hq : q = p.afterPushPop reg dest := by
    show p.after 2 = _
    rw [after_succ', hafter, hstate']
  have hv : p.pushValue reg = v := p.pushValue_eq reg
  have hlasts : p.Lasts 2 := by
    rw [lasts_succ_iff, lasts_succ_iff, hstate]
    exact ⟨hresult, hresult', fun j hj => absurd hj (Nat.not_lt_zero j)⟩
  obtain ⟨hcounter, hflags, hsink, hmemory⟩ := p.afterPushPop_frame reg dest
  rw [hv] at hmemory
  rw [hq, hafter]
  refine ⟨hlasts, hcounter, hflags, hsink, ?_, fun a ha => ?_, fun hpointer => ?_,
    fun hpointer => afterPushPop_of_eq hpointer reg dest, hskipped, ?_⟩
  · rw [hmemory, Memory.cell_withCell_self]
  · rw [hmemory, Memory.cell_withCell_of_ne ha]
  · rw [← hv]
    exact afterPushPop_of_ne hpointer hdest hne reg
  · constructor
    · intro hsame hpointer
      rw [(afterPushPop_of_eq hpointer reg dest).1, hpointer] at hsame
      exact absurd hsame (by decide)
    · intro hpointer
      exact (afterPushPop_of_ne hpointer hdest hne reg).2.1

/-- The stack pointer is pushed from address 0, where addresses wrap around, and a register is pushed
from one cell above the base. -/
theorem push_pop_restores_at_edges :
    let p := (loaded .unlimited [0x82, 7, 0, 0x45, 7, 0x46, 0]).after 1
    let r := (loaded .unlimited [0x82, 7, 0xF5, 0x45, 7, 0x46, 0]).after 1
    (p.status = .running ∧ p.stackPointer = 0 ∧ Fetch.Gives p.memory.read p.counter
      ((Instruction.push 7).encode ++ (Instruction.pop 0).encode)) ∧
    ((p.after 2).value 0 = 0xFF ∧ (p.after 2).memory.cell 0xFF = 0xFF ∧
      (p.after 2).stackPointer = 0) ∧
    (r.status = .running ∧ r.stackPointer = 0xF5 ∧ Fetch.Gives r.memory.read r.counter
      ((Instruction.push 7).encode ++ (Instruction.pop 0).encode)) ∧
    ((r.after 2).value 0 = r.value 0 ∧ (r.after 2).memory.cell 0xF4 = 0xF4 ∧
      (r.after 2).stackPointer = 0xF4) := by
  intro p r
  have hp : p.status = .running ∧ p.stackPointer = 0 ∧ p.counter = 3 := by decide +kernel
  have hr : r.status = .running ∧ r.stackPointer = 0xF5 ∧ r.counter = 3 := by decide +kernel
  have hpbytes : Fetch.Gives p.memory.read p.counter
      ((Instruction.push 7).encode ++ (Instruction.pop 0).encode) := by
    unfold Fetch.Gives
    decide +kernel
  have hrbytes : Fetch.Gives r.memory.read r.counter
      ((Instruction.push 7).encode ++ (Instruction.pop 0).encode) := by
    unfold Fetch.Gives
    decide +kernel
  clear_value p r
  obtain ⟨hprun, hpsp, hpcounter⟩ := hp
  obtain ⟨hrrun, hrsp, hrcounter⟩ := hr
  obtain ⟨-, -, -, -, hpcell, -, hpvalue, -⟩ := push_pop_restores hprun (by decide) (by decide)
    (by decide) hpbytes (by rw [hpsp, hpcounter]; decide) (by rw [hpsp, hpcounter]; decide)
  obtain ⟨-, -, -, -, hrcell, -, -, hrvalue, -⟩ := push_pop_restores hrrun (by decide) (by decide)
    (by decide) hrbytes (by rw [hrsp, hrcounter]; decide) (by rw [hrsp, hrcounter]; decide)
  obtain ⟨hdelivered, hback, -⟩ := hpvalue (by rw [hpsp]; decide)
  obtain ⟨hbase, hkept⟩ := hrvalue hrsp
  rw [hpsp] at hpcell hdelivered hback
  rw [hrsp] at hrcell
  exact ⟨⟨hprun, hpsp, hpbytes⟩, ⟨hdelivered, hpcell, hback⟩, ⟨hrrun, hrsp, hrbytes⟩,
    ⟨hkept 0 (by decide), hrcell, hbase⟩⟩

end LS8.Processor
