import LS8.Proofs.Reachable
import LS8.Proofs.Reading

/-!
# Standstill

There are two kinds of states that steps cannot leave.  A halted processor takes no steps, and one whose
program counter is past the end of memory finds nothing to decode.  Such a processor is `AtRest`: steps
and runs do nothing to it, so a history changes its memory, by what it loads, and its tracing switch,
and nothing else (`Reaches.of_atRest`).

The first kind is entered by a halt instruction only, whatever is done to the processor
(`halting_is_final`).  The second is reached by an instruction that ends at the last address, and it is
not an end that a run could report as a success (`Reachable.bounded_and_trapped`).

Of the numbers that a step computes only the count of steps can outgrow its type, and for that as many
steps have to be taken as can be counted.
-/

namespace LS8.Processor

variable {p q : Processor} {i : Instruction} {history : List Action}

/-! ## Halting -/

/-- The next instruction is a halt if its byte is next. -/
theorem attempts_halt_iff :
    p.Attempts .halt ↔ p.status = .running ∧ p.memory.read p.counter = .ok 0x01 := by
  refine and_congr_right fun _ => ⟨fun h => ?_, fun h => ?_⟩
  · obtain ⟨-, hgives, -⟩ := (Decoding.ends_instruction _ _).of_ok h
    exact (Fetch.gives_cons.mp hgives).1
  · have hgives : Fetch.Gives p.memory.read p.counter Instruction.halt.encode :=
      Fetch.gives_cons.mpr ⟨h, rfl⟩
    rw [(Decoding.Ends.complete (i := .halt) trivial hgives).instruction_eq]

/-- A halt leaves the program counter where it is, and it is counted. -/
theorem Attempts.step_halt (h : p.Attempts .halt) :
    step p = ⟨.ok .halted, { p with status := .halted, steps := p.steps + 1 },
      p.announcement ++ [.decoded p.counter .halt]⟩ := by
  rw [step_of_running h.1]
  simp only [h.2, execute_halt, follow]

/-- No other step halts a running processor. -/
theorem attempts_halt_of_step (hrun : p.status = .running)
    (h : (step p).state.status = .halted) : p.Attempts .halt := by
  rcases step_cases hrun with ⟨d, -, hstep⟩ |
    ⟨i, hi, ⟨k, q, log, heffect, hstep⟩ | ⟨e, q, log, hfail, hstep⟩⟩
  · rw [hstep, hrun] at h
    cases h
  · have hq : q.status = .running := heffect.frame.2.1.trans hrun
    rw [hstep] at h
    cases k with
    | halt =>
      cases heffect
      exact hi
    | next | jump =>
      rw [follow, hq] at h
      cases h
  · rw [hstep, hfail.frame.2.1, hrun] at h
    cases h

/-- A run that leaves a running processor halted ends with a halt, and ends well. -/
theorem halt_of_run {limit : Option UInt64} {o : Outcome Processor Fault Unit}
    (hrun : p.status = .running) (h : p.run limit = some o) (hhalted : o.state.status = .halted) :
    ∃ k, p.Lasts k ∧ (∀ n ∈ limit, p.steps.toNat + k < n.toNat) ∧ (p.after k).Attempts .halt ∧
      o = ⟨.ok (), (step (p.after k)).state, p.events (k + 1)⟩ := by
  rcases run_cases hrun h with ⟨k, hstop, hlimit, rfl⟩ | ⟨n, -, hlasts, rfl⟩
  · rw [after_succ'] at hhalted
    have hhalt := attempts_halt_of_step (hstop.1.after hrun).1 hhalted
    refine ⟨k, hstop.1, fun n hn => ?_, hhalt, ?_⟩
    · have := hlimit n hn
      omega
    · rw [after_succ', hhalt.step_halt]
      rfl
  · -- A run that its limit cuts short leaves the processor running.
    rw [(hlasts.after hrun).1] at hhalted
    cases hhalted

/-! ## Standing still -/

/-- The memory after an action on a processor at rest.  Only a load changes it. -/
def Action.loadInto (m : Memory 256) : Action → Memory 256
  | .load program => (Memory.load 0 program m).state
  | _ => m

/-- If a step does nothing to a processor, then of all actions only a load and the tracing switch do
something to it. -/
theorem perform_of_step_eq {a : Action} {o : Outcome Processor ActionError (Option Status)}
    (h : (step p).state = p) (ho : p.perform a = some o) :
    o.state = { p with memory := a.loadInto p.memory, tracing := o.state.tracing } := by
  cases a with
  | load program =>
    cases ho
    rfl
  | step =>
    cases ho
    show (step p).state = { p with tracing := (step p).state.tracing }
    rw [h]
  | run limit =>
    obtain ⟨o', ho', rfl⟩ := Option.map_eq_some_iff.mp ho
    obtain ⟨n, hstate, -⟩ := after_of_run ho'
    have hafter : p.after n = p := Function.iterate_fixed h n
    show o'.state = { p with tracing := o'.state.tracing }
    rw [hstate, hafter]
  | setTracing on =>
    cases ho
    rfl

/-- There is nothing to be done by a step: the processor has halted, or its program counter is past the
end of memory. -/
def AtRest (p : Processor) : Prop := p.status = .halted ∨ 256 ≤ p.counter

theorem AtRest.step_state (h : p.AtRest) : (step p).state = p := by
  cases hrun : p.status with
  | halted => rw [step_of_halted hrun]
  | running =>
    have hcounter : ¬ p.counter < 256 := by simpa [AtRest, hrun] using h
    have hread : p.memory.read p.counter = .error (.outOfBounds p.counter 256) := by
      simp [Memory.read, hcounter]
    simp [step_of_running hrun, Decoding.instruction, hread]

/-- No history moves a processor that is at rest. -/
theorem Reaches.of_atRest (h : p.AtRest) (hr : p.Reaches history q) :
    q = { p with memory := history.foldl Action.loadInto p.memory, tracing := q.tracing } := by
  induction hr with
  | nil => rfl
  | @snoc history q a o _ hlast ih =>
    have hq : q.AtRest := by
      rw [ih]
      exact h
    have ho := perform_of_step_eq hq.step_state hlast
    rw [ho, List.foldl_append, ih]
    rfl

/-- **Only a halt halts, and halting is final.**  A step halts a running processor exactly if the byte at
the program counter is that of a halt.  An action that does so is a step or a run that succeeds, and its
last step is that halt: it leaves the program counter on the byte and counts one.  No load, no failure
and no step limit halts.  Once the processor has halted, every step says so and every run is over at
once, whatever its limit; both report nothing, and no history changes more than the memory, by loads,
and the tracing switch. -/
theorem halting_is_final (p : Processor) :
    (p.status = .running →
      ((step p).state.status = .halted ↔ p.memory.read p.counter = .ok 0x01) ∧
      ∀ a o, p.perform a = some o → o.state.status = .halted →
        ∃ k, p.Lasts k ∧ (p.after k).status = .running ∧
          (p.after k).memory.read (p.after k).counter = .ok 0x01 ∧
          o.state = { p.after k with status := .halted, steps := (p.after k).steps + 1 } ∧
          ((a = .step ∧ k = 0 ∧ o.result = .ok (some .halted)) ∨
            ∃ limit, a = .run limit ∧ (∀ n ∈ limit, p.steps.toNat + k < n.toNat) ∧ o.result = .ok none)) ∧
    (p.status = .halted → ∀ history q, p.Reaches history q →
      q = { p with memory := history.foldl Action.loadInto p.memory, tracing := q.tracing } ∧
      step q = ⟨.ok .halted, q, []⟩ ∧ ∀ limit, q.run limit = some ⟨.ok (), q, []⟩) := by
  refine ⟨fun hrun => ⟨⟨fun h => ?_, fun h => ?_⟩, fun a o ho hhalted => ?_⟩,
    fun hhalted history q hr => ?_⟩
  · exact (attempts_halt_iff.mp (attempts_halt_of_step hrun h)).2
  · rw [(attempts_halt_iff.mpr ⟨hrun, h⟩).step_halt]
  · cases a with
    | load | setTracing =>
      cases ho
      have hsame : p.status = .halted := hhalted
      rw [hrun] at hsame
      cases hsame
    | step =>
      cases ho
      have hhalt := attempts_halt_of_step hrun hhalted
      refine ⟨0, fun j hj => absurd hj (Nat.not_lt_zero j), hrun, (attempts_halt_iff.mp hhalt).2, ?_,
        .inl ⟨rfl, rfl, ?_⟩⟩
      · simp [ActionError.wrap, hhalt.step_halt]
      · simp [ActionError.wrap, hhalt.step_halt, Except.mapError, Except.map]
    | run limit =>
      obtain ⟨o', ho', rfl⟩ := Option.map_eq_some_iff.mp ho
      obtain ⟨k, hlasts, hlimit, hhalt, rfl⟩ := halt_of_run hrun ho' hhalted
      obtain ⟨hrun', hbyte⟩ := attempts_halt_iff.mp hhalt
      refine ⟨k, hlasts, hrun', hbyte, ?_, .inr ⟨limit, rfl, hlimit, rfl⟩⟩
      simp [ActionError.wrap, hhalt.step_halt]
  · have hq := hr.of_atRest (.inl hhalted)
    have hqhalted : q.status = .halted := by rw [hq, hhalted]
    exact ⟨hq, step_of_halted hqhalted, run_of_halted hqhalted⟩

/-- A program of two bytes that halts, and the same processor with another program and tracing on. -/
theorem halting_is_final_two :
    let p := loaded .unlimited [0x00, 0x01]
    let q := p.after 2
    let r := (step (load [0x82, 0, 1] { q with tracing := true }).state).state
    ((p.after 1).status = .running ∧ (p.after 1).memory.read (p.after 1).counter = .ok 0x01 ∧
      (step (p.after 1)).state.status = .halted) ∧
    (p.status = .running ∧ p.perform (.run (some 2)) = some ⟨.ok none, q, p.events 2⟩ ∧
      q.status = .halted ∧ ∃ k, p.Lasts k ∧ (p.after k).memory.read (p.after k).counter = .ok 0x01 ∧
        q = { p.after k with status := .halted, steps := (p.after k).steps + 1 }) ∧
    (q.Reaches [.setTracing true, .load [0x82, 0, 1], .step] r ∧ r.memory.cell 0 = 0x82 ∧
      step r = ⟨.ok .halted, r, []⟩ ∧ r.run (some 0) = some ⟨.ok (), r, []⟩) := by
  intro p q r
  have hrun : p.status = .running := rfl
  have hsteps : p.steps = 0 := rfl
  have hrun' : (p.after 1).status = .running := by decide +kernel
  have hbyte : (p.after 1).memory.read (p.after 1).counter = .ok 0x01 := by decide +kernel
  have hhalted : q.status = .halted := by decide +kernel
  have hcell : r.memory.cell 0 = 0x82 := by decide +kernel
  have hstop : p.StopsAt 2 := by decide +kernel
  have hend : ending (step (p.after 1)).result = .ok () := by decide +kernel
  have hperform : p.perform (.run (some 2)) = some ⟨.ok none, q, p.events 2⟩ := by
    rw [perform, run_of_stopsAt hrun hstop (by simp [hsteps]), hend]
    simp [ActionError.wrap, Except.mapError, Except.map, q]
  have hr : q.Reaches [.setTracing true, .load [0x82, 0, 1], .step] r := by
    have htraced : q.Reaches [.setTracing true] { q with tracing := true } :=
      Reaches.nil.setTracing true
    have hloaded := htraced.load [0x82, 0, 1]
    exact hloaded.step
  clear_value r q
  obtain ⟨-, hstep, hruns⟩ := (halting_is_final q).2 hhalted _ r hr
  obtain ⟨k, hlasts, -, hlast, hstate, -⟩ := ((halting_is_final p).1 hrun).2 _ _ hperform hhalted
  have hhalts := ((halting_is_final (p.after 1)).1 hrun').1.mpr hbyte
  exact ⟨⟨hrun', hbyte, hhalts⟩, ⟨hrun, hperform, hhalted, k, hlasts, hlast, hstate⟩, hr, hcell, hstep,
    hruns (some 0)⟩

/-! ## The end of memory -/

theorem step_at_end (hrun : p.status = .running) (h : p.counter = 256) :
    step p = ⟨.error (.decode (.memory pastEnd)), p, p.announcement⟩ := by
  rw [step_of_running hrun]
  simp [Decoding.instruction, h, read_end]

/-- A run past the end of memory fails at once: it finds nothing to decode, or it may not even try. -/
theorem run_at_end (hrun : p.status = .running) (h : p.counter = 256) (limit : Option UInt64) :
    p.run limit = some ⟨.error (.decode (.memory pastEnd)), p, p.announcement⟩ ∨
      ∃ n, limit = some n ∧ n ≤ p.steps ∧ p.run limit = some ⟨.error (.stepLimit n), p, []⟩ := by
  have hstep := step_at_end hrun h
  by_cases hlimit : ∀ n ∈ limit, p.steps < n
  · have hstop : p.StopsAt 1 := ⟨fun j hj => absurd hj (Nat.not_lt_zero j), by simp [hstep]⟩
    have hadmits : ∀ n ∈ limit, 0 + 1 ≤ n.toNat - p.steps.toNat := fun n hn =>
      Nat.sub_pos_of_lt (UInt64.lt_iff_toNat_lt.mp (hlimit n hn))
    left
    rw [run_of_stopsAt hrun hstop hadmits, after_succ', events_succ', after_zero, hstep]
    rfl
  · push Not at hlimit
    obtain ⟨n, rfl, hn⟩ := hlimit
    have hused : n ≤ p.steps := UInt64.not_lt.mp hn
    exact .inr ⟨n, rfl, hused, run_of_le_steps hrun hused⟩

/-! ## Bounds -/

/-- The addresses that a step computes: those that a snapshot shows and that of the instruction behind a
call, those that decoding asks for, and where the instruction decoded ends. -/
def computed (p : Processor) : List Nat :=
  let d := Decoding.instruction p.memory.read p.counter
  [p.counter, p.counter + 1, p.counter + 2] ++ d.fetched ++
    d.result.toOption.toList.map (p.counter + ·.length)

/-- Decoding asks for nothing behind the first address past the end of memory. -/
theorem fetched_le (h : p.counter ≤ 256) {a : Nat}
    (ha : a ∈ (Decoding.instruction p.memory.read p.counter).fetched) : a ≤ 256 := by
  have hends := Decoding.ends_instruction p.memory.read p.counter
  generalize Decoding.instruction p.memory.read p.counter = d at hends ha
  cases hends with
  | @complete i _ hgives =>
    have hle := hgives.le h
    rw [i.length_encode] at hle
    rw [List.mem_range'_1] at ha
    omega
  | cutOff _ _ _ hgives =>
    -- The last address is that of the first byte which is not given.
    have hle := hgives.le h
    rw [List.mem_range'_1] at ha
    omega
  | unknown => exact List.mem_singleton.mp ha ▸ h

theorem computed_le (h : p.counter ≤ 256) {a : Nat} (ha : a ∈ p.computed) : a ≤ 258 := by
  simp only [computed, List.mem_append, List.mem_map] at ha
  rcases ha with (hahead | hfetched) | ⟨i, hi, rfl⟩
  · simp at hahead
    omega
  · exact (fetched_le h hfetched).trans (by decide)
  · have hdecoded : (Decoding.instruction p.memory.read p.counter).result = .ok i := by
      cases hd : (Decoding.instruction p.memory.read p.counter).result <;>
        simp_all [Except.toOption]
    have hlength := Decoding.length_le_of_instruction hdecoded
    omega

/-- The sums that a step computes, each with the number of values of its type: the addresses, which have
16 bits at least, and the count after a step that succeeds, which has 64. -/
def sums (p : Processor) : List (Nat × Nat) :=
  p.computed.map (·, UInt16.size) ++ [(p.steps.toNat + 1, UInt64.size)]

theorem sums_fit (h : p.counter ≤ 256) (hcount : p.steps < greatestCount) {s : Nat × Nat}
    (hs : s ∈ p.sums) : s.1 < s.2 := by
  rw [sums, List.mem_append, List.mem_map, List.mem_singleton] at hs
  rcases hs with ⟨a, ha, rfl⟩ | rfl
  · exact (computed_le h ha).trans_lt (by decide : 258 < UInt16.size)
  · exact toNat_add_one_lt_size hcount

/-- Once an instruction is decoded, the only use of memory that can fail is to look for the return
address of a call, which is one past the end if the call is the last instruction. -/
theorem Attempts.memory_error {e : MemoryError} (h : p.Attempts i)
    (herror : (step p).result = .error (.memory e)) :
    (∃ reg, i = .call reg) ∧ p.counter = 254 ∧ e = pastEnd := by
  have hlength := Decoding.length_le_of_instruction h.2
  rcases step_error_cases herror with ⟨-, hnone⟩ | ⟨j, log, hj, hfail⟩
  · exact absurd h (hnone i)
  · obtain rfl := h.unique hj
    generalize (step p).state = q at hfail
    cases hfail with
    | @callAddress reg hfull =>
      have hcounter : p.counter + 2 = 256 := le_antisymm hlength (Nat.le_of_not_lt hfull)
      exact ⟨⟨reg, rfl⟩, Nat.add_right_cancel hcounter, by rw [hcounter, pastEnd]⟩

/-- A halted processor stands on the byte of its halt. -/
theorem Reachable.counter_le_of_halted (h : p.Reachable) (hhalted : p.status = .halted) :
    p.counter ≤ 255 := by
  refine h.keeps (fun q => q.status = .halted → q.counter ≤ 255) ?_ ?_ ?_ ?_ hhalted
  · intro q program hq
    exact hq
  · intro q hq hstopped
    cases hrun : q.status with
    | halted =>
      rw [step_of_halted hrun]
      exact hq hrun
    | running =>
      have hhalt := attempts_halt_of_step hrun hstopped
      rw [hhalt.step_halt]
      exact Nat.le_of_lt_succ (Decoding.length_le_of_instruction hhalt.2)
  · intro q on hq
    exact hq
  · intro sink hinitial
    cases hinitial

/-- Below the greatest count, counting is exact. -/
theorem toNat_steps_step {status : Status} (hcount : p.steps < greatestCount)
    (hrun : p.status = .running) (h : (step p).result = .ok status) :
    (step p).state.steps.toNat = p.steps.toNat + 1 := by
  rw [(step_counts hrun h).2, UInt64.toNat_add]
  exact Nat.mod_eq_of_lt (toNat_add_one_lt_size hcount)

/-- What a step computes and what it reaches for stays within bounds. -/
structure WithinBounds (p : Processor) : Prop where
  counter : p.counter ≤ 256
  /-- A halted processor has its program counter in memory. -/
  halted : p.status = .halted → p.counter ≤ 255
  computed : ∀ a ∈ p.computed, a ≤ 258
  /-- As long as the steps are not as many as can be counted, no sum overflows. -/
  sums : p.steps < greatestCount → ∀ s ∈ p.sums, s.1 < s.2
  /-- An instruction that is decoded lies in memory with all of its bytes. -/
  decoded : ∀ i, p.Attempts i → p.counter + i.length ≤ 256
  /-- An address in a register is that of a cell, so reading and writing there cannot fail. -/
  cells : ∀ a : UInt8, p.memory.read a.toNat = .ok (p.memory.cell a) ∧
    ∀ v, p.memory.write a.toNat v = .ok (p.memory.withCell a v)
  /-- There is a stack pointer. -/
  stack : p.registers.get 7 = .ok p.stackPointer ∧
    ∀ v, p.registers.set 7 v = .ok (p.withStackPointer v).registers
  /-- Behind decoding, memory fails only a call in the last two cells, for its return address. -/
  fault : ∀ i e, p.Attempts i → (step p).result = .error (.memory e) →
    (∃ reg, i = .call reg) ∧ p.counter = 254 ∧ e = pastEnd
  /-- As long as they are not, a step that succeeds makes the count one more. -/
  steps : p.steps < greatestCount → p.status = .running →
    ∀ status, (step p).result = .ok status → (step p).state.steps.toNat = p.steps.toNat + 1

theorem Reachable.withinBounds (h : p.Reachable) : p.WithinBounds where
  counter := h.counter_le
  halted := h.counter_le_of_halted
  computed _ ha := computed_le h.counter_le ha
  sums hcount _ hs := sums_fit h.counter_le hcount hs
  decoded _ hi := Decoding.length_le_of_instruction hi.2
  cells a := ⟨by simp [Memory.read, Memory.cell, a.toNat_lt],
    fun v => by simp [Memory.write, Memory.withCell, a.toNat_lt]⟩
  stack := ⟨by simp [Registers.get, stackPointer],
    fun v => by simp [Registers.set, withStackPointer]⟩
  fault _ _ hi := hi.memory_error
  steps hcount hrun _ hok := toNat_steps_step hcount hrun hok

/-- **The program counter stays within bounds, and one past the end it is trapped.**  Whatever is done to
a processor, its program counter is at most 256, and at most 255 if it has halted; so nothing that a step
computes or reaches for is out of bounds, but for the return address of a call in the last two cells,
which is refused, and for the count of steps where it is the greatest.  A processor whose program counter
is 256 is running, and it stays so with the same registers, flags, output and count of steps in every
later state.  There each step fails for want of an instruction, and each run fails for that or for its
limit. -/
theorem Reachable.bounded_and_trapped (h : p.Reachable) :
    p.WithinBounds ∧
    (p.counter = 256 → ∀ history q, p.Reaches history q →
      q = { p with memory := history.foldl Action.loadInto p.memory, tracing := q.tracing } ∧
      q.counter = 256 ∧ q.status = .running ∧
      step q = ⟨.error (.decode (.memory (.outOfBounds 256 256))), q, q.announcement⟩ ∧
      ∀ limit,
        q.run limit =
            some ⟨.error (.decode (.memory (.outOfBounds 256 256))), q, q.announcement⟩ ∨
          ∃ n, limit = some n ∧ n ≤ q.steps ∧
            q.run limit = some ⟨.error (.stepLimit n), q, []⟩) := by
  refine ⟨h.withinBounds, fun hend history q hr => ?_⟩
  have hq := hr.of_atRest (.inr hend.ge)
  have hcounter : q.counter = 256 := by rw [hq, hend]
  have hrun : q.status = .running := by
    cases hstatus : p.status with
    | running => rw [hq, hstatus]
    | halted =>
      have := h.counter_le_of_halted hstatus
      omega
  exact ⟨hq, hcounter, hrun, step_at_end hrun hcounter, run_at_end hrun hcounter⟩

/-- A jump to the last address, behind which the program counter is stuck, and a call that has been
pushed into the last two cells. -/
theorem bounded_and_trapped_behind_jump :
    let p := (loaded .unlimited [0x82, 0, 255, 0x54, 0]).after 3
    let q := (step (load [0x01] p).state).state
    let r := (loaded .unlimited [0x82, 7, 255, 0x82, 0, 0x50, 0x45, 0, 0x82, 1, 254, 0x54, 1]).after 5
    (p.Reachable ∧ p.counter = 256) ∧
    (p.Reaches [.load [0x01], .step] q ∧ q.memory.cell 0 = 0x01 ∧ q.counter = 256 ∧
      q.status = .running ∧
      step q = ⟨.error (.decode (.memory (.outOfBounds 256 256))), q, q.announcement⟩) ∧
    (r.Reachable ∧ r.Attempts (.call 0) ∧ (step r).result = .error (.memory pastEnd) ∧
      r.counter = 254) ∧
    (r.steps < greatestCount ∧ ∀ s ∈ r.sums, s.1 < s.2) := by
  intro p q r
  have hp : p.Reachable := (reachable_loaded (by decide) .unlimited).after 3
  have hr : r.Reachable := (reachable_loaded (by decide) .unlimited).after 5
  have hend : p.counter = 256 := by decide +kernel
  have hcell : q.memory.cell 0 = 0x01 := by decide +kernel
  have hcall : r.Attempts (.call 0) := by decide +kernel
  have hfault : (step r).result = .error (.memory pastEnd) := by decide +kernel
  have hcount : r.steps < greatestCount := by decide +kernel
  have hq : p.Reaches [.load [0x01], .step] q := by
    have hloaded : p.Reaches [.load [0x01]] (load [0x01] p).state := Reaches.nil.load [0x01]
    exact hloaded.step
  clear_value q
  obtain ⟨-, hcounter, hrun, hstep, -⟩ := hp.bounded_and_trapped.2 hend _ q hq
  obtain ⟨-, hfrom, -⟩ := hr.bounded_and_trapped.1.fault _ _ hcall hfault
  exact ⟨⟨hp, hend⟩, ⟨hq, hcell, hcounter, hrun, hstep⟩, ⟨hr, hcall, hfault, hfrom⟩, hcount,
    hr.bounded_and_trapped.1.sums hcount⟩

/-- A jump to its own address that has been carried out as often as a run can be told to.  One more such
step succeeds, and its count overflows. -/
theorem count_overflows_behind_greatest_limit :
    let p : Processor := { loaded .unlimited [0x54, 0] with steps := greatestCount }
    (initial .unlimited).Reaches [.load [0x54, 0], .run (some greatestCount)] p ∧
    p.status = .running ∧ (step p).result = .ok .running ∧
    (¬ ∀ s ∈ p.sums, s.1 < s.2) ∧ (step p).state.steps = 0 := by
  intro p
  let start := loaded .unlimited [0x54, 0]
  have hload : (initial .unlimited).Reaches [.load [0x54, 0]] start := by
    have hreaches := (Reaches.nil (p := initial .unlimited)).load [0x54, 0]
    rwa [load_initial (by decide)] at hreaches
  have hloop : start.JumpsToItself := ⟨0, by decide, by decide +kernel, by decide +kernel⟩
  have hrun : start.run (some greatestCount) =
      some ⟨.error (.stepLimit greatestCount), p, start.events greatestCount.toNat⟩ :=
    hloop.run rfl greatestCount
  have hagain : p.JumpsToItself := hloop
  obtain ⟨hresult, hstate⟩ := hagain.step
  have hrunning : p.status = .running := rfl
  have hsteps : p.steps = greatestCount := rfl
  clear_value p start
  refine ⟨hload.run hrun, hrunning, hresult, fun hfits => ?_, ?_⟩
  · have hcount : (p.steps.toNat + 1, UInt64.size) ∈ p.sums := by simp [sums]
    have hless : p.steps.toNat + 1 < UInt64.size := hfits _ hcount
    rw [hsteps, toNat_greatestCount] at hless
    exact absurd hless (Nat.lt_irrefl _)
  · rw [hstate, hsteps, greatestCount_add_one]

end LS8.Processor
