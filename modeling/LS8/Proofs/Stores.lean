import LS8.Proofs.Failure
import LS8.Proofs.LastWriter
import LS8.Proofs.Steps

/-!
# What an instruction does with memory

Once it is decoded, an instruction reads one cell at most, that on top of the stack if it pops
(`reads`), and it stores one byte at most, below the top if it pushes (`stores`).  Other cells have no say
in what it does: with another memory that agrees on the cell read it has the same result and the same
report, and stores the same byte in the same cell (`execute_withMemory`).

Whether an instruction fails makes a difference to what it stores only if it fails in time.  A push looks
for its register before it stores, but a call stores the return address first.
-/

namespace LS8

/-! ## Stores in a row -/

namespace Memory

variable {m m' : Memory 256} {stores : List (UInt8 × UInt8)} {a : UInt8}

/-- The memory after some stores, each given by its cell and its byte. -/
def storeAll (m : Memory 256) (stores : List (UInt8 × UInt8)) : Memory 256 :=
  stores.foldl (fun m s => m.withCell s.1 s.2) m

@[simp] theorem storeAll_nil (m : Memory 256) : m.storeAll [] = m := rfl

theorem storeAll_append (m : Memory 256) (first rest : List (UInt8 × UInt8)) :
    m.storeAll (first ++ rest) = (m.storeAll first).storeAll rest :=
  List.foldl_append

/-- A cell has the byte that was stored there last. -/
theorem cell_storeAll (m : Memory 256) (stores : List (UInt8 × UInt8)) (a : UInt8) :
    (m.storeAll stores).cell a =
      ((stores.filterMap fun s => if s.1 = a then some s.2 else none).getLast?).getD (m.cell a) := by
  rw [← foldl_getD, storeAll]
  refine (List.foldl_hom (fun m : Memory 256 => m.cell a) fun m s => ?_).symm
  split_ifs with h
  · rw [← h, cell_withCell_self, Option.getD_some]
  · rw [cell_withCell_of_ne (Ne.symm h), Option.getD_none]

/-- A cell that nothing is stored to keeps its byte. -/
theorem cell_storeAll_of_notMem (h : a ∉ stores.map Prod.fst) :
    (m.storeAll stores).cell a = m.cell a := by
  have hnone : (stores.filterMap fun s => if s.1 = a then some s.2 else none) = [] := by
    refine List.filterMap_eq_nil_iff.mpr fun s hs => if_neg ?_
    rintro rfl
    exact h (List.mem_map_of_mem hs)
  rw [cell_storeAll, hnone]
  rfl

/-- The same stores make memories agree where they store, and where they agreed before. -/
theorem cell_storeAll_congr (h : m'.cell a = m.cell a ∨ a ∈ stores.map Prod.fst) :
    (m'.storeAll stores).cell a = (m.storeAll stores).cell a := by
  rw [cell_storeAll, cell_storeAll]
  rcases h with hsame | hmem
  · rw [hsame]
  · obtain ⟨s, hs, ha⟩ := List.mem_map.mp hmem
    have hv : s.2 ∈ stores.filterMap fun s => if s.1 = a then some s.2 else none :=
      List.mem_filterMap.mpr ⟨s, hs, if_pos ha⟩
    rw [List.getLast?_eq_some_getLast (List.ne_nil_of_mem hv)]
    rfl

end Memory

namespace Processor

variable {p : Processor} {i : Instruction} {m : Memory 256}

/-! ## Instructions -/

/-- The cells that an instruction reads, which is one at most. -/
def reads (p : Processor) : Instruction → List UInt8
  | .pop _ | .ret _ => if p.stackPointer = stackBase then [] else [p.stackPointer]
  | _ => []

/-- What an instruction stores, whether it succeeds or not: one byte at most, with its cell in front. -/
def stores (p : Processor) : Instruction → List (UInt8 × UInt8)
  | .push reg => if reg < 8 then [(p.stackPointer - 1, p.pushValue reg)] else []
  | .call _ =>
    if p.counter + 2 < 256 then [(p.stackPointer - 1, (p.counter + 2).toUInt8)] else []
  | _ => []

/-- The processor with another memory. -/
def withMemory (p : Processor) (m : Memory 256) : Processor := { p with memory := m }

theorem withMemory_reads (p : Processor) (m : Memory 256) :
    (p.withMemory m).stackPointer = p.stackPointer ∧ (p.withMemory m).counter = p.counter ∧
      (p.withMemory m).flags = p.flags ∧ (p.withMemory m).sink = p.sink ∧
      (∀ reg, (p.withMemory m).value reg = p.value reg) ∧
      (∀ reg, (p.withMemory m).pushValue reg = p.pushValue reg) ∧
      ∀ other, (p.withMemory m).operand other = p.operand other :=
  ⟨rfl, rfl, rfl, rfl, fun _ => rfl, fun _ => rfl, fun other => by cases other <;> rfl⟩

/-- A pop from another memory takes the same byte if that is on top there. -/
theorem popped_withMemory (h : m.cell p.stackPointer = p.memory.cell p.stackPointer)
    (reg : UInt8) : (p.withMemory m).popped reg = (p.popped reg).withMemory m := by
  have htop : (p.withMemory m).memory.cell (p.withMemory m).stackPointer =
      p.memory.cell p.stackPointer := h
  simp only [popped, htop]
  rfl

/-- An instruction takes no notice of the cells that it does not read. -/
theorem execute_withMemory (h : ∀ a ∈ p.reads i, m.cell a = p.memory.cell a) :
    execute i (p.withMemory m) =
      ⟨(execute i p).result, (execute i p).state.withMemory (m.storeAll (p.stores i)),
        (execute i p).log⟩ := by
  obtain ⟨hpointer, hcounter, hflags, hsink, hvalue, hpush, hoperand⟩ := p.withMemory_reads m
  cases i with
  | nop | halt => rfl
  | loadImmediate reg v =>
    rw [execute_loadImmediate, execute_loadImmediate]
    split_ifs <;> rfl
  | print reg =>
    rw [execute_print, execute_print, hvalue, hsink]
    split_ifs <;> rfl
  | alu op reg other =>
    by_cases hreg : reg < 8
    · by_cases hother : ∀ second ∈ other, second < 8
      · rw [execute_alu hreg hother, execute_alu hreg hother, hvalue, hoperand]
        cases op.eval (p.value reg) (p.operand other) <;> rfl
      · push Not at hother
        obtain ⟨second, rfl, hsecond⟩ := hother
        rw [execute_alu_of_second_not hreg hsecond, execute_alu_of_second_not hreg hsecond]
        rfl
    · rw [execute_alu_of_not hreg, execute_alu_of_not hreg]
      rfl
  | push reg =>
    rw [execute_push, execute_push, hpush, hpointer, stores]
    split_ifs <;> rfl
  | pop reg =>
    rw [execute_pop, execute_pop, hpointer, hcounter]
    split_ifs with hempty hreg
    · rfl
    · have htop : m.cell p.stackPointer = p.memory.cell p.stackPointer :=
        h _ (by simp [reads, hempty])
      rw [popped_withMemory htop, ← htop]
      rfl
    · rfl
  | call reg =>
    rw [execute_call, execute_call, hcounter, hpointer, stores]
    split_ifs <;> rfl
  | ret reg =>
    rw [execute_ret, execute_ret, hpointer, hcounter]
    split_ifs with hempty
    · rfl
    · rfl
    · have htop : m.cell p.stackPointer = p.memory.cell p.stackPointer :=
        h _ (by simp [reads, hempty])
      rw [popped_withMemory htop, ← htop]
      rfl
    · rfl
  | jump reg =>
    rw [execute_jump, execute_jump, hvalue]
    rfl
  | jumpIfEqual reg =>
    rw [execute_jumpIfEqual, execute_jumpIfEqual, execute_jump, execute_jump, hflags, hvalue]
    split_ifs <;> rfl
  | jumpIfNotEqual reg =>
    rw [execute_jumpIfNotEqual, execute_jumpIfNotEqual, execute_jump, execute_jump, hflags, hvalue]
    split_ifs <;> rfl

/-- After an instruction, successful or not, memory is what it was but for what was stored. -/
theorem memory_execute (p : Processor) (i : Instruction) :
    (execute i p).state.memory = p.memory.storeAll (p.stores i) :=
  congrArg (fun o => o.state.memory) (execute_withMemory (p := p) (i := i) (m := p.memory) fun _ _ => rfl)

/-! ## Steps -/

/-- What the next step stores. -/
def storing (p : Processor) : List (UInt8 × UInt8) :=
  match p.status with
  | .halted => []
  | .running =>
    match (Decoding.instruction p.memory.read p.counter).result with
    | .error _ => []
    | .ok i => p.stores i

theorem Attempts.storing_eq (h : p.Attempts i) : p.storing = p.stores i := by
  rw [storing, h.1, h.2]

theorem storing_of_not_attempts (h : ∀ i, ¬ p.Attempts i) : p.storing = [] := by
  cases hrun : p.status with
  | halted => simp [storing, hrun]
  | running =>
    cases hdec : (Decoding.instruction p.memory.read p.counter).result with
    | error e => simp [storing, hrun, hdec]
    | ok i => exact absurd ⟨hrun, hdec⟩ (h i)

/-- After a step, successful or not, memory is what it was but for what was stored. -/
theorem memory_step (p : Processor) : (step p).state.memory = p.memory.storeAll p.storing := by
  cases hrun : p.status with
  | halted => simp [step_of_halted hrun, storing, hrun]
  | running =>
    rw [step_of_running hrun, storing, hrun]
    cases hdec : (Decoding.instruction p.memory.read p.counter).result with
    | error e => rfl
    | ok i =>
      have hmemory := memory_execute p i
      rcases hx : execute i p with ⟨e | k, q, log⟩ <;> simp only [hx] at hmemory ⊢
      · exact hmemory
      · rw [(follow_frame q i k).1, hmemory]

/-- What the first `n` steps store. -/
def storedWithin (p : Processor) (n : Nat) : List (UInt8 × UInt8) :=
  (List.range n).flatMap fun j => (p.after j).storing

theorem memory_after (p : Processor) (n : Nat) :
    (p.after n).memory = p.memory.storeAll (p.storedWithin n) := by
  induction n with
  | zero => rfl
  | succ n ih =>
    have hsucc : p.storedWithin (n + 1) = p.storedWithin n ++ (p.after n).storing := by
      simp [storedWithin, List.range_succ]
    rw [after_succ', memory_step, ih, hsucc, Memory.storeAll_append]

end Processor

end LS8
