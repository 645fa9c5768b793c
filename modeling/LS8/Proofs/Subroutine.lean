import LS8.Proofs.Steps
import LS8.Proofs.Stretch

/-!
# Subroutines return to their caller

A call stores its return address in the cell below the stack pointer, among the program's own bytes
and open to every later push.  What protects it is the stack pointer alone: a step writes at most one
cell, the one below the stack pointer, so the cell is safe as long as the stack pointer does not come
back to where the caller had it.

The *depth* of the stack is the distance of the stack pointer from its base, modulo 256.  While it
stays above the caller's depth, the stack pointer is not the caller's, whatever instructions are
carried out and however often addresses wrap around.  So a return at the callee's own depth finds the
return address that the call has stored (`Stretch.returns`).  A body that changes the stack pointer in
other ways than by pushes and pops is no exception.
-/

namespace LS8.Processor

variable {p q : Processor} {i : Instruction} {steps : List (Processor × Instruction)}

/-- The number of cells between the stack pointer and the base of the stack, counted modulo 256. -/
def depth (p : Processor) : Nat := (stackBase - p.stackPointer).toNat

/-- One cell deeper is one address lower. -/
theorem stackPointer_eq_of_depth (h : q.depth = p.depth + 1) :
    q.stackPointer = p.stackPointer - 1 := by
  have hlt : p.depth + 1 < 256 := h ▸ (stackBase - q.stackPointer).toNat_lt
  have hsub : stackBase - q.stackPointer = stackBase - p.stackPointer + 1 := by
    apply UInt8.toNat_inj.mp
    rw [UInt8.toNat_add]
    exact h.trans (Nat.mod_eq_of_lt hlt).symm
  calc q.stackPointer = stackBase - (stackBase - q.stackPointer) := by simp
    _ = stackBase - (stackBase - p.stackPointer + 1) := by rw [hsub]
    _ = p.stackPointer - 1 := by grind

theorem stackPointer_ne_base (h : 0 < p.depth) : p.stackPointer ≠ stackBase := by
  intro hbase
  rw [depth, hbase, UInt8.sub_self] at h
  exact absurd h (by decide)

/-! ## The saved return address -/

/-- A cell keeps its contents over a stretch during which the stack pointer is never just above
it. -/
theorem Stretch.cell_eq {a : UInt8} (h : Stretch p steps q)
    (hsteps : ∀ s ∈ steps, s.1.stackPointer ≠ a + 1) : q.memory.cell a = p.memory.cell a := by
  refine h.keeps (fun r => r.memory.cell a = p.memory.cell a) rfl ?_
  intro s hs next hstep hkept
  rw [hstep.cell_eq, hkept]
  intro ha
  exact hsteps s hs (by simp [ha])

theorem Performs.call {reg : UInt8} (h : p.Performs (.call reg) q) :
    p.counter + 2 < 256 ∧ q.stackPointer = p.stackPointer - 1 ∧
      q.memory.cell (p.stackPointer - 1) = (p.counter + 2).toUInt8 := by
  obtain ⟨-, -, k, p', log, heffect, rfl⟩ := performs_iff.mp h
  cases heffect with
  | call hreg hfits => exact ⟨hfits, by simp, by simp⟩

theorem Performs.ret {reg : UInt8} (h : p.Performs (.ret reg) q) (hne : reg ≠ 7)
    (hnonempty : p.stackPointer ≠ stackBase) :
    q.counter = (p.memory.cell p.stackPointer).toNat ∧
      q.registers.get reg.toNat = .ok (p.memory.cell p.stackPointer) ∧
      q.stackPointer = p.stackPointer + 1 := by
  obtain ⟨-, -, k, p', log, heffect, rfl⟩ := performs_iff.mp h
  cases heffect with
  | retEmpty hreg hempty => exact absurd hempty hnonempty
  | ret hreg hnonempty =>
    have hvalue := value_popped_self hreg hne p
    refine ⟨congrArg UInt8.toNat hvalue, ?_, ?_⟩
    · rw [get_eq_ok hreg, value_follow, hvalue]
    · rw [stackPointer_follow, stackPointer_popped_of_ne hne]

/-- **A subroutine returns to its caller.**  Take a call and any stretch of steps after it during
which the stack is deeper than before the call.  If the stretch ends with a return into a general
register at the depth that the call has left, then the program goes on behind the call, the register
holds that address, and the stack pointer is the caller's again. -/
theorem Stretch.returns {p last q : Processor} {target dest : UInt8}
    {body : List (Processor × Instruction)}
    (h : Stretch p ((p, .call target) :: body ++ [(last, .ret dest)]) q)
    (hbody : ∀ s ∈ body, p.depth + 1 ≤ s.1.depth) (hlast : last.depth = p.depth + 1)
    (hdest : dest ≠ 7) :
    q.counter = p.counter + 2 ∧
      (∃ v, q.registers.get dest.toNat = .ok v ∧ v.toNat = p.counter + 2) ∧
      q.stackPointer = p.stackPointer := by
  obtain ⟨-, hcall, hrest⟩ := Stretch.cons_iff.mp h
  obtain ⟨_, hstretch, hret⟩ := hrest.of_append
  obtain ⟨rfl, hret⟩ := Stretch.of_single hret
  obtain ⟨hfits, -, hsaved⟩ := hcall.call
  have hpointer : last.stackPointer = p.stackPointer - 1 := stackPointer_eq_of_depth hlast
  -- The body cannot write the saved address: it never has the caller's stack pointer.
  have hkept : last.memory.cell (p.stackPointer - 1) = (p.counter + 2).toUInt8 := by
    rw [hstretch.cell_eq, hsaved]
    intro s hs heq
    have hdepth : s.1.depth = p.depth := by rw [depth, depth, heq, UInt8.sub_add_cancel]
    have := hbody s hs
    omega
  have hnonempty : last.stackPointer ≠ stackBase := stackPointer_ne_base (by omega)
  obtain ⟨hcounter, hvalue, hsp⟩ := hret.ret hdest hnonempty
  rw [hpointer] at hcounter hvalue hsp
  rw [hkept] at hcounter hvalue
  have haddress : (p.counter + 2).toUInt8.toNat = p.counter + 2 := by
    simpa using Nat.mod_eq_of_lt hfits
  refine ⟨hcounter.trans haddress, ⟨_, hvalue, haddress⟩, ?_⟩
  rw [hsp, UInt8.sub_add_cancel]

/-- A subroutine that pushes, calls another one and pops before it returns. -/
theorem Stretch.returns_nested :
    let p := (loaded .unlimited
      [0x82, 1, 11, 0x82, 2, 19, 0x50, 1, 0x47, 0, 0x01,
        0x45, 0, 0x50, 2, 0x46, 0, 0x51, 3, 0x65, 0, 0x51, 4]).after 2
    let body := along (p.after 1) [.push 0, .call 2, .alu .inc 0 none, .ret 4, .pop 0]
    (Stretch p ((p, .call 1) :: body ++ [(p.after 6, .ret 3)]) (p.after 7) ∧
      (∀ s ∈ body, p.depth + 1 ≤ s.1.depth) ∧ (p.after 6).depth = p.depth + 1) ∧
    (p.after 7).counter = 8 ∧ (p.after 7).stackPointer = p.stackPointer := by
  intro p body
  have hfound : ∀ s ∈ along p
      [.call 1, .push 0, .call 2, .alu .inc 0 none, .ret 4, .pop 0, .ret 3],
      s.1.status = .running ∧
        (Decoding.instruction s.1.memory.read s.1.counter).result = .ok s.2 ∧
          (step s.1).result.isOk := by decide +kernel
  have hbody : ∀ s ∈ body, p.depth + 1 ≤ s.1.depth := by decide +kernel
  have hlast : (p.after 6).depth = p.depth + 1 := by decide +kernel
  have hcall : p.counter = 6 := by decide +kernel
  have hstretch : Stretch p ((p, .call 1) :: body ++ [(p.after 6, .ret 3)]) (p.after 7) :=
    Stretch.of_along hfound
  obtain ⟨hcounter, -, hpointer⟩ := Stretch.returns hstretch hbody hlast (by decide)
  exact ⟨⟨hstretch, hbody, hlast⟩, by rw [hcounter, hcall], hpointer⟩

end LS8.Processor
