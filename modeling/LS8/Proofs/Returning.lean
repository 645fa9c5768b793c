import LS8.Proofs.Subroutine
import LS8.Proofs.Reachable

/-!
# Where a return goes

A return pops the byte on top of the stack into its register, moves the stack pointer over it, and then
reads its register again to see where to go.  For seven of the eight registers this makes no difference
to going where the byte says.  The eighth is the stack pointer: what is read back from it has been moved,
so the return goes to the byte behind the one that it should go to.

`counter_afterRet` has both cases, and `ret_resumes_iff` says which returns resume behind their call.
-/

namespace LS8.Processor

variable {p : Processor} {reg : UInt8}

/-! ## The register of a return -/

/-- A pop into the stack pointer leaves it one past the byte popped. -/
theorem stackPointer_popped_seven (p : Processor) :
    (p.popped 7).stackPointer = p.memory.cell p.stackPointer + 1 := by
  rw [popped, withValue_seven, stackPointer_withStackPointer, stackPointer_withStackPointer]

/-- What is read back from the register of a pop. -/
theorem value_popped (hreg : reg < 8) (p : Processor) :
    (p.popped reg).value reg =
      if reg = 7 then p.memory.cell p.stackPointer + 1 else p.memory.cell p.stackPointer := by
  split_ifs with hseven
  · rw [hseven, value_seven, stackPointer_popped_seven]
  · exact value_popped_self hreg hseven p

/-! ## The step -/

/-- The processor after a step that returns through a register. -/
def afterRet (p : Processor) (reg : UInt8) : Processor :=
  (p.popped reg).follow (.ret reg) (.jump ((p.popped reg).value reg))

theorem counter_afterRet (hreg : reg < 8) (p : Processor) :
    (p.afterRet reg).counter =
      (if reg = 7 then p.memory.cell p.stackPointer + 1 else p.memory.cell p.stackPointer).toNat :=
  congrArg UInt8.toNat (value_popped hreg p)

/-- A return goes to the address on top of the stack, but for the one through the stack pointer.  That
one misses it, also where addresses wrap around. -/
theorem counter_afterRet_eq_iff (hreg : reg < 8) (p : Processor) :
    (p.afterRet reg).counter = (p.memory.cell p.stackPointer).toNat ↔ reg ≠ 7 := by
  rw [counter_afterRet hreg, UInt8.toNat_inj]
  by_cases hseven : reg = 7
  · simp [hseven]
  · simp [hseven]

theorem stackPointer_afterRet (p : Processor) (reg : UInt8) :
    (p.afterRet reg).stackPointer =
      if reg = 7 then p.memory.cell p.stackPointer + 1 else p.stackPointer + 1 := by
  rw [afterRet, stackPointer_follow]
  split_ifs with hseven
  · rw [hseven, stackPointer_popped_seven]
  · exact stackPointer_popped_of_ne hseven p

theorem Attempts.step_ret (h : p.Attempts (.ret reg)) (hreg : reg < 8)
    (hnonempty : p.stackPointer ≠ stackBase) :
    (step p).result = .ok .running ∧ (step p).state = p.afterRet reg := by
  rw [h.step_eq (.ret hreg hnonempty)]
  exact ⟨congrArg Except.ok h.1, rfl⟩

/-! ## Returning from a call -/

/-- The byte that a call leaves on top of the stack is the address behind it. -/
theorem Performs.top_call {caller callee : Processor} {target : UInt8}
    (h : caller.Performs (.call target) callee) :
    (callee.memory.cell callee.stackPointer).toNat = caller.counter + 2 := by
  obtain ⟨hfits, hpointer, hsaved⟩ := h.call
  rw [hpointer, hsaved]
  simpa using Nat.mod_eq_of_lt hfits

/-- **A return resumes behind its call through every register but the stack pointer.**  A return on a
stack that is not empty succeeds.  Through a general register it goes to the byte on top of the stack,
which the register then holds.  Through the stack pointer it goes one byte further, and the stack pointer
holds that address.  So when the byte on top is the one that some call has pushed, the program goes on
behind that call exactly if the register is not the stack pointer. -/
theorem ret_resumes_iff (h : p.Attempts (.ret reg)) (hreg : reg < 8)
    (hnonempty : p.stackPointer ≠ stackBase) :
    let top := p.memory.cell p.stackPointer
    let q := (step p).state
    (step p).result = .ok .running ∧
    (reg ≠ 7 → q.counter = top.toNat ∧ q.value reg = top ∧ q.stackPointer = p.stackPointer + 1) ∧
    (reg = 7 → q.counter = (top + 1).toNat ∧ q.stackPointer = top + 1) ∧
    (q.counter = top.toNat ↔ reg ≠ 7) ∧
    ∀ (caller callee : Processor) (target : UInt8), caller.Performs (.call target) callee →
      callee.memory.cell callee.stackPointer = top → (q.counter = caller.counter + 2 ↔ reg ≠ 7) := by
  intro top q
  obtain ⟨hresult, hstate⟩ := h.step_ret hreg hnonempty
  have hq : q = p.afterRet reg := hstate
  have hcounter := counter_afterRet hreg p
  have hpointer := stackPointer_afterRet p reg
  rw [hq]
  refine ⟨hresult, fun hgeneral => ?_, fun hseven => ?_, counter_afterRet_eq_iff hreg p,
    fun caller callee target hcall htop => ?_⟩
  · rw [if_neg hgeneral] at hcounter hpointer
    refine ⟨hcounter, ?_, hpointer⟩
    rw [afterRet, value_follow, value_popped_self hreg hgeneral]
  · rw [if_pos hseven] at hcounter hpointer
    exact ⟨hcounter, hpointer⟩
  · rw [← hcall.top_call, htop]
    exact counter_afterRet_eq_iff hreg p

/-- A subroutine that returns through a general register. -/
theorem ret_resumes_iff_general :
    let caller := (loaded .unlimited [0x82, 1, 6, 0x50, 1, 0x01, 0x51, 2]).after 1
    let p := caller.after 1
    (p.Attempts (.ret 2) ∧ p.stackPointer ≠ stackBase ∧ caller.Performs (.call 1) p) ∧
      (step p).result = .ok .running ∧ (step p).state.counter = 5 ∧ caller.counter = 3 := by
  intro caller p
  have hret : p.Attempts (.ret 2) := by decide +kernel
  have hnonempty : p.stackPointer ≠ stackBase := by decide +kernel
  have hcall : caller.Performs (.call 1) p :=
    performs_iff_step.mpr ⟨by decide +kernel, by decide +kernel, by decide +kernel, rfl⟩
  have hcaller : caller.counter = 3 := by decide +kernel
  clear_value p caller
  obtain ⟨hresult, -, -, -, hresumes⟩ := ret_resumes_iff hret (by decide) hnonempty
  have hcounter := (hresumes caller p 1 hcall rfl).mpr (by decide)
  rw [hcaller] at hcounter
  exact ⟨⟨hret, hnonempty, hcall⟩, hresult, hcounter, hcaller⟩

/-- A subroutine that returns through the stack pointer skips the byte behind its call, here a halt. -/
theorem ret_through_stackPointer_skips :
    let caller := (loaded .unlimited [0x82, 1, 6, 0x50, 1, 0x01, 0x51, 7]).after 1
    let p := caller.after 1
    (p.Reachable ∧ p.Attempts (.ret 7) ∧ p.stackPointer ≠ stackBase ∧
      caller.Performs (.call 1) p ∧ p.memory.cell p.stackPointer = 5 ∧ caller.counter + 2 = 5) ∧
    (step p).state.counter = 6 := by
  intro caller p
  have hreachable : p.Reachable := ((reachable_loaded (by decide) _).after 1).after 1
  have hcall : caller.Performs (.call 1) p :=
    performs_iff_step.mpr ⟨by decide +kernel, by decide +kernel, by decide +kernel, rfl⟩
  refine ⟨⟨hreachable, ?_, ?_, hcall, ?_, ?_⟩, ?_⟩ <;> decide +kernel

end LS8.Processor
