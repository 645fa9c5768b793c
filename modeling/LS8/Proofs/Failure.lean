import LS8.Proofs.Execution

/-!
# What a failed step leaves behind

A step that fails is not rolled back.  What its instruction had done before it failed stays done; only
the program counter, the status and the count of steps are safe, because a step moves them last.

`Failure` lists the ways in which an instruction fails as `Effect` lists those in which it succeeds:
one case for each, with the fault, the processor left behind and the report.  Going through the cases
shows that three of them leave something.  A push moves the stack pointer before it looks up its
register.  A call has stored the return address by the time it does so.  A print leaves as much of its
line in the sink as there was room for.  After every other failure the processor is what it was before
the step (`step_error_leaves`).
-/

namespace LS8

/-! ## Refused output -/

namespace Sink

/-- The part of a text that a sink has no room for. -/
def excess (s : Sink) (text : String) : String :=
  match s.capacity with
  | none => ""
  | some capacity => String.ofList (text.toList.drop (capacity - s.written.length))

/-- A sink takes the beginning of a text and leaves the rest. -/
theorem fitting_append_excess (s : Sink) (text : String) : s.fitting text ++ s.excess text = text := by
  cases hc : s.capacity with
  | none => simp [fitting, excess, hc]
  | some capacity =>
    simp only [fitting, excess, hc]
    rw [← String.ofList_append, List.take_append_drop, String.ofList_toList]

/-- A text is refused if there is a rest. -/
theorem excess_eq_empty_iff (s : Sink) (text : String) : s.excess text = "" ↔ s.accepts text := by
  cases hc : s.capacity with
  | none => simp [excess, accepts, hc]
  | some capacity =>
    simp [excess, accepts, hc, ← String.toList_inj, String.length_toList]

end Sink

namespace Processor

/-! ## The cases of failure -/

/-- Why an instruction fails, what it has made of a processor by then, and what it has reported. -/
inductive Failure (p : Processor) : Instruction → Fault → Processor → List Event → Prop
  | loadImmediate {reg v : UInt8} (h : ¬ reg < 8) :
      Failure p (.loadImmediate reg v) (noRegister reg) p []
  | print {reg : UInt8} (h : ¬ reg < 8) : Failure p (.print reg) (noRegister reg) p []
  | refused {reg : UInt8} (h : reg < 8)
      (full : p.sink.accepts (printedLine (p.value reg)) = false) :
      Failure p (.print reg) .output (p.printed (p.value reg)) []
  | alu {op : AluOperation} {reg : UInt8} {other : Option UInt8} (h : ¬ reg < 8) :
      Failure p (.alu op reg other) (noRegister reg) p []
  | aluSecond {op : AluOperation} {reg second : UInt8} (h : reg < 8) (hsecond : ¬ second < 8) :
      Failure p (.alu op reg (some second)) (noRegister second) p []
  | push {reg : UInt8} (h : ¬ reg < 8) :
      Failure p (.push reg) (noRegister reg) (p.withStackPointer (p.stackPointer - 1)) []
  | pop {reg : UInt8} (h : ¬ reg < 8) (nonempty : p.stackPointer ≠ stackBase) :
      Failure p (.pop reg) (noRegister reg) p []
  | callAddress {reg : UInt8} (h : ¬ p.counter + 2 < 256) :
      Failure p (.call reg) (.memory (.outOfBounds (p.counter + 2) 256)) p []
  | call {reg : UInt8} (h : ¬ reg < 8) (fits : p.counter + 2 < 256) :
      Failure p (.call reg) (noRegister reg) (p.pushed (p.counter + 2).toUInt8)
        [.bytePushed (p.counter + 2).toUInt8 (p.stackPointer - 1)]
  | retEmpty {reg : UInt8} (h : ¬ reg < 8) (empty : p.stackPointer = stackBase) :
      Failure p (.ret reg) (noRegister reg) p [.stackEmpty p.counter reg]
  | ret {reg : UInt8} (h : ¬ reg < 8) (nonempty : p.stackPointer ≠ stackBase) :
      Failure p (.ret reg) (noRegister reg) p []
  | jump {reg : UInt8} (h : ¬ reg < 8) : Failure p (.jump reg) (noRegister reg) p []
  | equalTaken {reg : UInt8} (h : ¬ reg < 8) (equal : p.flags.isEqual) :
      Failure p (.jumpIfEqual reg) (noRegister reg) p []
  | unequalTaken {reg : UInt8} (h : ¬ reg < 8) (unequal : p.flags.isEqual = false) :
      Failure p (.jumpIfNotEqual reg) (noRegister reg) p []

/-- Each case of `Failure` is a way in which an instruction fails. -/
theorem Failure.execute_eq {i : Instruction} {p q : Processor} {e : Fault} {log : List Event}
    (h : Failure p i e q log) : execute i p = ⟨.error e, q, log⟩ := by
  cases h with
  | loadImmediate h => rw [execute_loadImmediate, if_neg h]
  | print h => rw [execute_print, if_neg h]
  | refused h full => simp [execute_print, h, full]
  | alu h => exact execute_alu_of_not h _ _ p
  | aluSecond h hsecond => exact execute_alu_of_second_not h hsecond _ p
  | push h => rw [execute_push, if_neg h]
  | pop h nonempty => rw [execute_pop, if_neg nonempty, if_neg h]
  | callAddress h => rw [execute_call, if_neg h]
  | call h fits => rw [execute_call, if_pos fits, if_neg h]
  | retEmpty h empty => rw [execute_ret, if_pos empty, if_neg h]
  | ret h nonempty => rw [execute_ret, if_neg nonempty, if_neg h]
  | jump h => rw [execute_jump, if_neg h]
  | equalTaken h equal => rw [execute_jumpIfEqual, if_pos equal, execute_jump, if_neg h]
  | unequalTaken h unequal => simp [execute_jumpIfNotEqual, unequal, execute_jump, h]

/-- The cases of `Failure` are all the ways in which an instruction fails. -/
theorem Failure.of_execute {i : Instruction} {p q : Processor} {e : Fault} {log : List Event}
    (h : execute i p = ⟨.error e, q, log⟩) : Failure p i e q log := by
  cases i with
  | nop | halt => cases h
  | loadImmediate reg v =>
    rw [execute_loadImmediate] at h
    split_ifs at h with hreg <;> cases h
    exact .loadImmediate hreg
  | print reg =>
    rw [execute_print] at h
    split_ifs at h with hreg hfits <;> cases h
    · exact .refused hreg (Bool.not_eq_true _ ▸ hfits)
    · exact .print hreg
  | alu op reg other =>
    by_cases hreg : reg < 8
    · by_cases hother : ∀ second ∈ other, second < 8
      · rw [execute_alu hreg hother] at h
        cases h
      · push Not at hother
        obtain ⟨second, rfl, hsecond⟩ := hother
        rw [execute_alu_of_second_not hreg hsecond] at h
        cases h
        exact .aluSecond hreg hsecond
    · rw [execute_alu_of_not hreg] at h
      cases h
      exact .alu hreg
  | push reg =>
    rw [execute_push] at h
    split_ifs at h with hreg <;> cases h
    exact .push hreg
  | pop reg =>
    rw [execute_pop] at h
    split_ifs at h with hempty hreg <;> cases h
    exact .pop hreg hempty
  | call reg =>
    rw [execute_call] at h
    split_ifs at h with hfits hreg <;> cases h
    · exact .call hreg hfits
    · exact .callAddress hfits
  | ret reg =>
    rw [execute_ret] at h
    split_ifs at h with hempty hreg hreg <;> cases h
    · exact .retEmpty hreg hempty
    · exact .ret hreg hempty
  | jump reg =>
    rw [execute_jump] at h
    split_ifs at h with hreg <;> cases h
    exact .jump hreg
  | jumpIfEqual reg =>
    rw [execute_jumpIfEqual, execute_jump] at h
    split_ifs at h with hequal hreg <;> cases h
    exact .equalTaken hreg hequal
  | jumpIfNotEqual reg =>
    rw [execute_jumpIfNotEqual, execute_jump] at h
    split_ifs at h with hequal hreg <;> cases h
    exact .unequalTaken hreg (Bool.not_eq_true _ ▸ hequal)

/-- An instruction fails exactly when a case of `Failure` applies. -/
theorem Failure.iff_execute {i : Instruction} {p q : Processor} {e : Fault} {log : List Event} :
    Failure p i e q log ↔ execute i p = ⟨.error e, q, log⟩ :=
  ⟨execute_eq, of_execute⟩

/-- An instruction succeeds or fails, in one of the cases listed. -/
theorem effect_or_failure (p : Processor) (i : Instruction) :
    (∃ k q log, Effect p i k q log) ∨ ∃ e q log, Failure p i e q log := by
  rcases h : execute i p with ⟨e | k, q, log⟩
  · exact .inr ⟨e, q, log, .of_execute h⟩
  · exact .inl ⟨k, q, log, .of_execute h⟩

/-! ## Steps -/

/-- The running processor has decoded this instruction and is about to carry it out. -/
def Attempts (p : Processor) (i : Instruction) : Prop :=
  p.status = .running ∧ (Decoding.instruction p.memory.read p.counter).result = .ok i

instance decidableAttempts (p : Processor) (i : Instruction) : Decidable (p.Attempts i) :=
  inferInstanceAs (Decidable (p.status = .running ∧
    (Decoding.instruction p.memory.read p.counter).result = .ok i))

variable {p : Processor} {i : Instruction} {e : Fault}

theorem Attempts.unique {j : Instruction} (h : p.Attempts i) (h' : p.Attempts j) : i = j := by
  have hij := h.2.symm.trans h'.2
  exact Except.ok.inj hij

/-- A step that attempts an instruction does what the instruction does if it succeeds, and moves on. -/
theorem Attempts.step_eq {k : Continuation} {q : Processor} {log : List Event} (h : p.Attempts i)
    (heffect : Effect p i k q log) : step p =
      ⟨.ok (q.follow i k).status, q.follow i k, p.announcement ++ .decoded p.counter i :: log⟩ := by
  rw [step_of_running h.1, h.2]
  simp only [heffect.execute_eq]

/-- What a step of a running processor may be: a failure to decode, after which nothing has happened,
an instruction that succeeds, or one that fails. -/
theorem step_cases (hrun : p.status = .running) :
    (∃ d, (∀ i, ¬ p.Attempts i) ∧ step p = ⟨.error (.decode d), p, p.announcement⟩) ∨
    ∃ i, p.Attempts i ∧
      ((∃ k q log, Effect p i k q log ∧ step p =
        ⟨.ok (q.follow i k).status, q.follow i k, p.announcement ++ .decoded p.counter i :: log⟩) ∨
      ∃ e q log, Failure p i e q log ∧ step p =
        ⟨.error e, q, p.announcement ++ .decoded p.counter i :: log⟩) := by
  rw [step_of_running hrun]
  cases hdec : (Decoding.instruction p.memory.read p.counter).result with
  | error d =>
    left
    refine ⟨d, ?_, rfl⟩
    rintro i ⟨-, hi⟩
    rw [hdec] at hi
    cases hi
  | ok i =>
    right
    refine ⟨i, ⟨hrun, hdec⟩, ?_⟩
    rcases effect_or_failure p i with ⟨k, q, log, heffect⟩ | ⟨e, q, log, hfail⟩
    · left
      refine ⟨k, q, log, heffect, ?_⟩
      simp only [heffect.execute_eq]
    · right
      refine ⟨e, q, log, hfail, ?_⟩
      simp only [hfail.execute_eq]

/-! ## Failed steps -/

/-- A step fails in decoding, and then nothing has happened, or with the instruction decoded. -/
theorem step_error_cases (h : (step p).result = .error e) :
    ((step p).state = p ∧ ∀ i, ¬ p.Attempts i) ∨
      ∃ i log, p.Attempts i ∧ Failure p i e (step p).state log := by
  cases hrun : p.status with
  | halted => simp [step_of_halted hrun] at h
  | running =>
    rcases step_cases hrun with ⟨d, hnone, hstep⟩ |
      ⟨i, hi, ⟨k, q, log, -, hstep⟩ | ⟨e', q, log, hfail, hstep⟩⟩
    · rw [hstep]
      exact .inl ⟨rfl, hnone⟩
    · rw [hstep] at h
      cases h
    · rw [hstep] at h ⊢
      cases h
      exact .inr ⟨i, log, hi, hfail⟩

/-- What an instruction does before it fails, it does to the registers, the memory or the sink. -/
theorem Failure.frame {q : Processor} {log : List Event} (h : Failure p i e q log) :
    q.counter = p.counter ∧ q.status = p.status ∧ q.flags = p.flags ∧ q.steps = p.steps ∧
      q.tracing = p.tracing := by
  cases h <;> exact ⟨rfl, rfl, rfl, rfl, rfl⟩

/-- A failed step moves nothing on. -/
theorem step_error_frame (h : (step p).result = .error e) :
    (step p).state.counter = p.counter ∧ (step p).state.status = p.status ∧
      (step p).state.flags = p.flags ∧ (step p).state.steps = p.steps ∧
      (step p).state.tracing = p.tracing := by
  rcases step_error_cases h with ⟨hsame, -⟩ | ⟨i, log, -, hfail⟩
  · rw [hsame]
    exact ⟨rfl, rfl, rfl, rfl, rfl⟩
  · exact hfail.frame

/-- **A failed step leaves three kinds of traces, and only these.**  Program counter, status, flags,
count of steps and tracing switch are as before.  A push that fails, for want of its register, leaves
the stack pointer one lower.  A call that fails although its return address fits has pushed that
address.  A print that fails for want of room leaves the part of its line that fits.  Every other
failure leaves the processor as it was. -/
theorem step_error_leaves (h : (step p).result = .error e) :
    let q := (step p).state
    (q.counter = p.counter ∧ q.status = p.status ∧ q.flags = p.flags ∧ q.steps = p.steps ∧
      q.tracing = p.tracing) ∧
    (∀ reg, p.Attempts (.push reg) →
      8 ≤ reg ∧ q = p.withStackPointer (p.stackPointer - 1)) ∧
    (∀ reg, p.Attempts (.call reg) → p.counter ≤ 253 →
      8 ≤ reg ∧ q =
        { p.withStackPointer (p.stackPointer - 1) with
          memory := p.memory.withCell (p.stackPointer - 1) (p.counter + 2).toUInt8 }) ∧
    (∀ reg, p.Attempts (.print reg) → reg < 8 →
      ∃ taken rest, printedLine (p.value reg) = taken ++ rest ∧ rest ≠ "" ∧
        taken = p.sink.fitting (printedLine (p.value reg)) ∧
        q = { p with sink := { p.sink with written := p.sink.written ++ taken } }) ∧
    ((∀ reg, ¬ p.Attempts (.push reg)) →
      (∀ reg, p.Attempts (.call reg) → 253 < p.counter) →
      (∀ reg, p.Attempts (.print reg) → 8 ≤ reg) → q = p) := by
  intro q
  refine ⟨step_error_frame h, ?_⟩
  rcases step_error_cases h with ⟨hsame, hnone⟩ | ⟨i, log, hi, hfail⟩
  · exact ⟨fun reg hreg => absurd hreg (hnone _), fun reg hreg => absurd hreg (hnone _),
      fun reg hreg => absurd hreg (hnone _), fun _ _ _ => hsame⟩
  · have hq : Failure p i e q log := hfail
    clear_value q
    refine ⟨fun reg hreg => ?_, fun reg hreg hfits => ?_, fun reg hreg hlt => ?_,
      fun hpush hcall hprint => ?_⟩
    · obtain rfl := hi.unique hreg
      cases hq with
      | push hne => exact ⟨UInt8.not_lt.mp hne, rfl⟩
    · obtain rfl := hi.unique hreg
      cases hq with
      | callAddress hfull => omega
      | call hne => exact ⟨UInt8.not_lt.mp hne, rfl⟩
    · obtain rfl := hi.unique hreg
      cases hq with
      | print hne => exact absurd hlt hne
      | refused _ hfull =>
        refine ⟨_, p.sink.excess (printedLine (p.value reg)), (Sink.fitting_append_excess ..).symm,
          fun hempty => ?_, rfl, rfl⟩
        rw [Sink.excess_eq_empty_iff, hfull] at hempty
        cases hempty
    · cases hq with
      | push => exact absurd hi (hpush _)
      | call hne hfits =>
        have := hcall _ hi
        omega
      | refused hlt => exact absurd hlt (UInt8.not_lt.mpr (hprint _ hi))
      | _ => rfl

/-- A call through a register that does not exist. -/
theorem step_error_leaves_call :
    let p := loaded .unlimited [0x50, 9]
    ((step p).result = .error (noRegister 9) ∧ p.Attempts (.call 9)) ∧
    (step p).state.counter = 0 ∧ (step p).state.stackPointer = 0xF3 ∧
      (step p).state.memory.cell 0xF3 = 2 := by
  intro p
  have herror : (step p).result = .error (noRegister 9) := by decide +kernel
  have hcall : p.Attempts (.call 9) := by decide +kernel
  obtain ⟨⟨hcounter, -⟩, -, hleaves, -⟩ := step_error_leaves herror
  obtain ⟨-, hstate⟩ := hleaves 9 hcall (by decide)
  refine ⟨⟨herror, hcall⟩, hcounter, ?_, ?_⟩
  · rw [hstate]
    decide +kernel
  · rw [hstate]
    decide +kernel

end Processor

end LS8
