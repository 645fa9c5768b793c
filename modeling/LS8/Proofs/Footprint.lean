import LS8.Proofs.Stores
import LS8.Proofs.Tracing

/-!
# The cells that a run depends on

The footprint of a step are the cells that it reads: those that it fetches to decode its instruction, and
the one that it pops.  No other cell has a say in it.  Of two processors whose memories agree on a set of
cells, and which agree in everything else that a program can see, the one does what the other does as long
as the footprints lie in the set (`AgreeOn.step`).

Programs may rewrite themselves, so the cells that are stored to matter as well.  But both processors
store the same bytes in the same cells, because what is stored comes from the registers and the program
counter.  So their memories go on agreeing where they did, come to agree where something is stored, and
keep their differences everywhere else (`steps_depend_on_footprint`).
-/

namespace LS8.Processor

variable {p q : Processor} {A : Set UInt8} {i : Instruction} {k : Nat}

/-! ## Footprints -/

/-- The cells that the next step reads: those that it fetches, as far as there are cells at these
addresses, and those that its instruction reads. -/
def footprint (p : Processor) : List UInt8 :=
  match p.status with
  | .halted => []
  | .running =>
    let d := Decoding.instruction p.memory.read p.counter
    (d.fetched.filter (· < 256)).map Nat.toUInt8 ++ d.result.toOption.toList.flatMap p.reads

theorem mem_footprint_of_fetched (hrun : p.status = .running) {n : Nat}
    (h : n ∈ (Decoding.instruction p.memory.read p.counter).fetched) (hn : n < 256) :
    n.toUInt8 ∈ p.footprint := by
  rw [footprint, hrun]
  exact List.mem_append_left _ (List.mem_map_of_mem (List.mem_filter.mpr ⟨h, decide_eq_true hn⟩))

theorem Attempts.mem_footprint {a : UInt8} (h : p.Attempts i) (ha : a ∈ p.reads i) :
    a ∈ p.footprint := by
  rw [footprint, h.1]
  refine List.mem_append_right _ (List.mem_flatMap.mpr ⟨i, ?_, ha⟩)
  simp [h.2, Except.toOption]

/-! ## Processors that agree on some cells -/

/-- Two processors differ in the cells outside of a set, the tracing switch and the count of steps at
most. -/
structure AgreeOn (A : Set UInt8) (p q : Processor) : Prop where
  cells : ∀ a ∈ A, q.memory.cell a = p.memory.cell a
  registers : q.registers = p.registers
  flags : q.flags = p.flags
  counter : q.counter = p.counter
  status : q.status = p.status
  sink : q.sink = p.sink

namespace AgreeOn

theorem follow (h : AgreeOn A p q) (i : Instruction) (k : Continuation) :
    AgreeOn A (p.follow i k) (q.follow i k) := by
  obtain ⟨hcells, hregisters, hflags, hcounter, hstatus, hsink⟩ := h
  cases k with
  | next => exact ⟨hcells, hregisters, hflags, by simp [Processor.follow, hcounter], hstatus, hsink⟩
  | jump address => exact ⟨hcells, hregisters, hflags, rfl, hstatus, hsink⟩
  | halt => exact ⟨hcells, hregisters, hflags, hcounter, rfl, hsink⟩

/-- But for memory, processors that agree on some cells agree. -/
theorem agree (h : AgreeOn A p q) : Agree (p.withMemory q.memory) q :=
  ⟨rfl, h.registers, h.flags, h.counter, h.status, h.sink⟩

/-- Processors that agree on the cells that are fetched decode alike. -/
theorem instruction_eq (h : AgreeOn A p q) (hrun : p.status = .running)
    (hreads : ∀ a ∈ p.footprint, a ∈ A) :
    Decoding.instruction q.memory.read q.counter = Decoding.instruction p.memory.read p.counter := by
  have hends := Decoding.ends_instruction p.memory.read p.counter
  rw [h.counter]
  refine (hends.congr fun n hn => ?_).instruction_eq
  by_cases hlt : n < 256
  · exact Memory.read_congr (h.cells _ (hreads _ (mem_footprint_of_fetched hrun hn hlt)))
  · simp [Memory.read, hlt]

/-- With the cells that an instruction reads in the set, it does the same to both. -/
theorem execute (h : AgreeOn A p q) (hreads : ∀ a ∈ p.reads i, a ∈ A) :
    (execute i q).result = (execute i p).result ∧
      AgreeOn A (execute i p).state (execute i q).state := by
  obtain ⟨hresult, hstate, -⟩ := h.agree.execute i
  rw [execute_withMemory fun a ha => h.cells a (hreads a ha)] at hresult hstate
  obtain ⟨hmemory, hregisters, hflags, hcounter, hstatus, hsink⟩ := hstate
  refine ⟨hresult, fun a ha => ?_, hregisters, hflags, hcounter, hstatus, hsink⟩
  rw [hmemory, memory_execute]
  exact Memory.cell_storeAll_congr (.inl (h.cells a ha))

/-- Processors that agree store the same. -/
theorem stores_eq (h : AgreeOn A p q) (i : Instruction) : q.stores i = p.stores i := by
  rw [h.agree.eq]
  rfl

theorem storing_eq (h : AgreeOn A p q) (hreads : ∀ a ∈ p.footprint, a ∈ A) :
    q.storing = p.storing := by
  rw [storing, storing, h.status]
  cases hrun : p.status with
  | halted => rfl
  | running =>
    simp only [h.instruction_eq hrun hreads, h.stores_eq]

/-- Processors that agree on the footprint of the next step take the same step. -/
theorem step (h : AgreeOn A p q) (hreads : ∀ a ∈ p.footprint, a ∈ A) :
    (step q).result = (step p).result ∧ AgreeOn A (step p).state (step q).state :=
  step_related (fun _ _ h => h.status) (fun _ _ i k h => h.follow i k) h.status
    (fun hrun => congrArg Decoding.result (h.instruction_eq hrun hreads)) (fun _ => h)
    fun _ hi => h.execute fun a ha => hreads a (hi.mem_footprint ha)

/-- Processors that agree on the footprints of the steps to come go on agreeing. -/
theorem after (h : AgreeOn A p q) (hreads : ∀ j < k, ∀ a ∈ (p.after j).footprint, a ∈ A) :
    AgreeOn A (p.after k) (q.after k) := by
  induction k with
  | zero => exact h
  | succ k ih =>
    rw [after_succ', after_succ']
    have hbefore := ih fun j hj => hreads j (Nat.lt_succ_of_lt hj)
    exact (hbefore.step (hreads k (Nat.lt_succ_self k))).2

theorem storedWithin_eq (h : AgreeOn A p q)
    (hreads : ∀ j < k, ∀ a ∈ (p.after j).footprint, a ∈ A) :
    q.storedWithin k = p.storedWithin k := by
  refine List.flatMap_congr fun j hj => ?_
  have hlt : j < k := List.mem_range.mp hj
  exact (h.after fun l hl => hreads l (hl.trans hlt)).storing_eq (hreads j hlt)

end AgreeOn

/-- **A run depends on the cells that it reads, and on no others.**  Let two processors agree on a set of
cells and in registers, flags, program counter, status and sink, and let the first `k` steps of the one
read nothing outside the set.  Then those of the other have the same results, failures among them, and the
two agree in the same way after each of them.  Both store the same.  Afterwards they agree in each cell
that was stored to, and in every other cell each has what it had before. -/
theorem steps_depend_on_footprint (h : AgreeOn A p q)
    (hreads : ∀ j < k, ∀ a ∈ (p.after j).footprint, a ∈ A) :
    let written := (p.storedWithin k).map Prod.fst
    (∀ j < k, (step (q.after j)).result = (step (p.after j)).result) ∧
    (∀ j ≤ k, AgreeOn A (p.after j) (q.after j)) ∧
    q.storedWithin k = p.storedWithin k ∧
    (∀ a, a ∈ A ∨ a ∈ written → (q.after k).memory.cell a = (p.after k).memory.cell a) ∧
    ∀ a ∉ written, (p.after k).memory.cell a = p.memory.cell a ∧
      (q.after k).memory.cell a = q.memory.cell a := by
  intro written
  have hafter (j : Nat) (hj : j ≤ k) : AgreeOn A (p.after j) (q.after j) :=
    h.after fun l hl => hreads l (lt_of_lt_of_le hl hj)
  have hstored := h.storedWithin_eq hreads
  refine ⟨fun j hj => ((hafter j hj.le).step (hreads j hj)).1, hafter, hstored, fun a ha => ?_,
    fun a ha => ?_⟩
  · rw [memory_after, memory_after, hstored]
    exact Memory.cell_storeAll_congr (ha.imp_left (h.cells a))
  · rw [memory_after, memory_after, hstored]
    exact ⟨Memory.cell_storeAll_of_notMem ha, Memory.cell_storeAll_of_notMem ha⟩

/-- A program that pushes twice and pops once, beside itself in a memory with other bytes below the base
of the stack and far from the program.  The first push makes up for the one difference, and nothing for the
other. -/
theorem steps_depend_on_footprint_stacking :
    let p := loaded .unlimited [0x82, 0, 7, 0x45, 0, 0x45, 0, 0x46, 1]
    let q := p.withMemory ((p.memory.withCell 0xF3 5).withCell 100 9)
    let A : Set UInt8 := {a | a < 9 ∨ a = 0xF2}
    (AgreeOn A p q ∧ ∀ j < 4, ∀ a ∈ (p.after j).footprint, a ∈ A) ∧
    q.memory.cell 0xF3 = 5 ∧ p.storedWithin 4 = [(0xF3, 7), (0xF2, 7)] ∧
    AgreeOn A (p.after 4) (q.after 4) ∧
    (q.after 4).memory.cell 0xF3 = 7 ∧ (q.after 4).memory.cell 100 = 9 := by
  intro p q A
  have hcells : ∀ a ∈ A, q.memory.cell a = p.memory.cell a := by
    intro a ha
    have h : a ≠ 100 ∧ a ≠ 0xF3 := by
      rcases ha with hlt | rfl
      · exact ⟨UInt8.ne_of_lt (UInt8.lt_trans hlt (by decide)),
          UInt8.ne_of_lt (UInt8.lt_trans hlt (by decide))⟩
      · exact ⟨by decide, by decide⟩
    exact (Memory.cell_withCell_of_ne h.1).trans (Memory.cell_withCell_of_ne h.2)
  have hagree : AgreeOn A p q := ⟨hcells, rfl, rfl, rfl, rfl, rfl⟩
  have hreads : ∀ j < 4, ∀ a ∈ (p.after j).footprint, a < 9 ∨ a = 0xF2 := by decide +kernel
  have hstored : p.storedWithin 4 = [(0xF3, 7), (0xF2, 7)] := by decide +kernel
  have hbefore : q.memory.cell 0xF3 = 5 ∧ q.memory.cell 100 = 9 := by decide +kernel
  have hpushed : (p.after 4).memory.cell 0xF3 = 7 := by decide +kernel
  clear_value p q
  obtain ⟨-, hafter, -, hwritten, hrest⟩ := steps_depend_on_footprint hagree hreads
  rw [hstored] at hwritten hrest
  exact ⟨⟨hagree, hreads⟩, hbefore.1, hstored, hafter 4 le_rfl,
    (hwritten 0xF3 (.inr (by decide))).trans hpushed,
    (hrest 100 (by decide)).2.trans hbefore.2⟩

end LS8.Processor
