import LS8.Processor.Run
import LS8.Proofs.Failure

/-!
# What a step does not look at

The count of steps and the tracing switch are kept for the reader, and the sink is looked at only by a
print, which asks it for room.  `execute_withSurroundings` says so of a single instruction: with other
surroundings it has the same result, the same log and the same effect on everything else.

Two processors are `Alike` when they differ in nothing but their surroundings and their sinks have the
same room left.  Alike processors stay alike, and their steps succeed and fail together
(`Alike.step`).  This is what makes a step a function of finitely many values, and so what lets a run
be judged by looking a bounded number of steps ahead.
-/

namespace LS8.Processor

variable {p q : Processor}

/-- The processor with another count of steps, tracing switch and sink. -/
def withSurroundings (p : Processor) (steps : UInt64) (tracing : Bool) (sink : Sink) : Processor :=
  { p with steps, tracing, sink }

theorem withSurroundings_reads (p : Processor) (steps : UInt64) (tracing : Bool) (sink : Sink) :
    (p.withSurroundings steps tracing sink).stackPointer = p.stackPointer ∧
      (p.withSurroundings steps tracing sink).counter = p.counter ∧
      (p.withSurroundings steps tracing sink).flags = p.flags ∧
      (∀ reg, (p.withSurroundings steps tracing sink).value reg = p.value reg) ∧
      ∀ other, (p.withSurroundings steps tracing sink).operand other = p.operand other :=
  ⟨rfl, rfl, rfl, fun _ => rfl, fun other => by cases other <;> rfl⟩

/-- An instruction that does not print takes no notice of the surroundings. -/
theorem execute_withSurroundings {i : Instruction} (h : ∀ reg, i ≠ .print reg) (p : Processor)
    (steps : UInt64) (tracing : Bool) (sink : Sink) :
    execute i (p.withSurroundings steps tracing sink) =
      ⟨(execute i p).result, (execute i p).state.withSurroundings steps tracing sink,
        (execute i p).log⟩ := by
  obtain ⟨hpointer, hcounter, hflags, hvalue, hoperand⟩ :=
    p.withSurroundings_reads steps tracing sink
  cases i with
  | nop | halt => rfl
  | print reg => exact absurd rfl (h reg)
  | loadImmediate reg v =>
    rw [execute_loadImmediate, execute_loadImmediate]
    split_ifs <;> rfl
  | alu op reg other =>
    by_cases hreg : reg < 8
    · by_cases hother : ∀ second ∈ other, second < 8
      · rw [execute_alu hreg hother, execute_alu hreg hother, hvalue, hoperand]
        cases op.eval (p.value reg) (p.operand other) <;> rfl
      · push Not at hother
        obtain ⟨second, rfl, hsecond⟩ := hother
        rw [execute_alu_of_second_not hreg hsecond, execute_alu_of_second_not hreg hsecond]
    · rw [execute_alu_of_not hreg, execute_alu_of_not hreg]
  | push reg =>
    rw [execute_push, execute_push]
    split_ifs <;> rfl
  | pop reg =>
    rw [execute_pop, execute_pop, hpointer, hcounter]
    split_ifs <;> rfl
  | call reg =>
    rw [execute_call, execute_call, hcounter]
    split_ifs <;> rfl
  | ret reg =>
    rw [execute_ret, execute_ret, hpointer, hcounter]
    split_ifs <;> rfl
  | jump reg => rw [execute_jump, execute_jump, hvalue]
  | jumpIfEqual reg =>
    rw [execute_jumpIfEqual, execute_jumpIfEqual, execute_jump, execute_jump, hflags, hvalue]
    split_ifs <;> rfl
  | jumpIfNotEqual reg =>
    rw [execute_jumpIfNotEqual, execute_jumpIfNotEqual, execute_jump, execute_jump, hflags, hvalue]
    split_ifs <;> rfl

/-- An instruction that does not print leaves the surroundings as they are. -/
theorem surroundings_execute {i : Instruction} (h : ∀ reg, i ≠ .print reg) (p : Processor) :
    (execute i p).state.steps = p.steps ∧ (execute i p).state.tracing = p.tracing ∧
      (execute i p).state.sink = p.sink := by
  have hstate : (execute i p).state =
      (execute i p).state.withSurroundings p.steps p.tracing p.sink :=
    congrArg Outcome.state (execute_withSurroundings h p p.steps p.tracing p.sink)
  exact ⟨(congrArg Processor.steps hstate :), (congrArg Processor.tracing hstate :),
    (congrArg Processor.sink hstate :)⟩

/-! ## Related steps -/

/-- If two processors find the same instruction, and it makes the same of both up to a relation that
moving on keeps, then so does the step. -/
theorem step_related {R : Processor → Processor → Prop}
    (hstatus : ∀ p q, R p q → q.status = p.status)
    (hfollow : ∀ p q i k, R p q → R (p.follow i k) (q.follow i k))
    (hsame : q.status = p.status)
    (hdecode : p.status = .running → (Decoding.instruction q.memory.read q.counter).result =
      (Decoding.instruction p.memory.read p.counter).result)
    (hidle : (∀ i, ¬ p.Attempts i) → R p q)
    (hexecute : ∀ i, p.Attempts i → (execute i q).result = (execute i p).result ∧
      R (execute i p).state (execute i q).state) :
    (step q).result = (step p).result ∧ R (step p).state (step q).state := by
  cases hrun : p.status with
  | halted =>
    rw [step_of_halted hrun, step_of_halted (hsame.trans hrun)]
    refine ⟨rfl, hidle ?_⟩
    rintro i ⟨hrun', -⟩
    rw [hrun] at hrun'
    cases hrun'
  | running =>
    rw [step_of_running hrun, step_of_running (hsame.trans hrun), hdecode hrun]
    cases hdecoded : (Decoding.instruction p.memory.read p.counter).result with
    | error e =>
      refine ⟨rfl, hidle ?_⟩
      rintro i ⟨-, hi⟩
      rw [hdecoded] at hi
      cases hi
    | ok i =>
      obtain ⟨hresult, hstate⟩ := hexecute i ⟨hrun, hdecoded⟩
      rcases hp : execute i p with ⟨e | k, p', log⟩ <;>
        rcases hq : execute i q with ⟨e' | k', q', log'⟩ <;>
        simp only [hp, hq, reduceCtorEq, Except.ok.injEq, Except.error.injEq] at hresult hstate ⊢
      · exact ⟨hresult, hstate⟩
      · subst hresult
        have hmoved := hfollow p' q' i k' hstate
        exact ⟨hstatus _ _ hmoved, hmoved⟩

/-! ## Alike processors -/

/-- Processors that only the reader can tell apart: they agree on everything but the count of steps,
the tracing switch and what has been printed, and their sinks have room for the same texts. -/
structure Alike (p q : Processor) : Prop where
  /-- The processors differ in their surroundings at most. -/
  same : q = p.withSurroundings q.steps q.tracing q.sink
  /-- Both sinks have the same capacity. -/
  capacity : q.sink.capacity = p.sink.capacity
  /-- Both sinks have the same room left. -/
  room : q.room = p.room

/-- Whether a text fits depends on the capacity and the room left only. -/
theorem Alike.accepts_eq (h : Alike p q) (text : String) :
    q.sink.accepts text = p.sink.accepts text := by
  have hroom := h.room
  have hcap := h.capacity
  cases hc : p.sink.capacity with
  | none => simp [Sink.accepts, hcap, hc]
  | some capacity =>
    simp only [Processor.room, hcap, hc] at hroom
    simp [Sink.accepts, hcap, hc, hroom]

/-- Writing takes as much room as it fills. -/
theorem room_printed (p : Processor) (v : UInt8) :
    (p.printed v).room = p.room - (printedLine v).length := by
  cases hc : p.sink.capacity with
  | none => simp [Processor.room, printed, Sink.write, hc]
  | some capacity =>
    simp only [Processor.room, printed, Sink.write, Sink.fitting, hc, String.length_append,
      String.length_ofList, List.length_take, String.length_toList]
    omega

theorem Alike.printed (h : Alike p q) (v : UInt8) : Alike (p.printed v) (q.printed v) where
  same := by rw [h.same]; rfl
  capacity := h.capacity
  room := by rw [room_printed, room_printed, h.room]

theorem Alike.execute (h : Alike p q) (i : Instruction) :
    (execute i q).result = (execute i p).result ∧
      Alike (execute i p).state (execute i q).state := by
  by_cases hprint : ∃ reg, i = .print reg
  · obtain ⟨reg, rfl⟩ := hprint
    have hvalue : q.value reg = p.value reg := by rw [h.same]; rfl
    rw [execute_print, execute_print, hvalue, h.accepts_eq]
    split_ifs
    · exact ⟨rfl, h.printed _⟩
    · exact ⟨rfl, h.printed _⟩
    · exact ⟨rfl, h⟩
  · push Not at hprint
    obtain ⟨-, -, hsink⟩ := surroundings_execute hprint p
    rw [h.same, execute_withSurroundings hprint]
    refine ⟨rfl, rfl, ?_, ?_⟩
    · exact h.capacity.trans (congrArg Sink.capacity hsink).symm
    · have hroom := h.room
      simp only [Processor.room] at hroom ⊢
      rw [hsink]
      exact hroom

theorem Alike.follow (h : Alike p q) (i : Instruction) (k : Continuation) :
    Alike (p.follow i k) (q.follow i k) := by
  refine ⟨?_, ?_, ?_⟩
  · rw [h.same]
    cases k <;> rfl
  · simpa using h.capacity
  · simpa [Processor.room] using h.room

/-- Alike processors take alike steps. -/
theorem Alike.step (h : Alike p q) :
    (step q).result = (step p).result ∧ Alike (step p).state (step q).state := by
  have hstatus (p q : Processor) (h : Alike p q) : q.status = p.status := by rw [h.same]; rfl
  have hmemory : q.memory = p.memory := by rw [h.same]; rfl
  have hcounter : q.counter = p.counter := by rw [h.same]; rfl
  exact step_related hstatus (fun _ _ i k h => h.follow i k) (hstatus p q h)
    (fun _ => by rw [hmemory, hcounter]) (fun _ => h) fun i _ => h.execute i

end LS8.Processor
