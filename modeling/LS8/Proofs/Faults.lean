import LS8.Proofs.Reachable

/-!
# When a step fails

Whether a step fails, and with which fault, can be read off the processor before it (`fault?`).  There
are six cases.  Three are faults of the bytes at the program counter and come first (`decodeFault?`).
The other three are faults of the upcoming instruction, and of these, too, the first that applies
counts: a call right at the end of memory has no room for its return address, whatever its register; a
register that the instruction consults does not exist; the sink has no room for the line to be printed.

An instruction need not consult every register that it names.  A pop from an empty stack and a
conditional jump that is not taken consult none, and so cannot fail.  A return consults its register on
an empty stack too.

The faults are exactly those (`step_error_iff`) provided that the program counter is at most one past
the end of memory, as it is in every reachable processor.
-/

namespace LS8.Processor

variable {p q : Processor} {i : Instruction} {e : Fault} {k : Continuation} {log : List Event}

/-! ## Faults of an instruction -/

/-- The registers that an instruction consults, in order. -/
def consulted (p : Processor) : Instruction → List UInt8
  | .nop | .halt => []
  | .loadImmediate reg _ | .print reg | .push reg | .call reg | .ret reg | .jump reg => [reg]
  | .alu _ reg other => reg :: other.toList
  | .pop reg => if p.stackPointer = stackBase then [] else [reg]
  | .jumpIfEqual reg => if p.flags.isEqual then [reg] else []
  | .jumpIfNotEqual reg => if p.flags.isEqual then [] else [reg]

/-- A call so close to the end of memory that its return address would lie past it. -/
def callFault? (p : Processor) : Instruction → Option Fault
  | .call _ => if p.counter = 254 then some (.memory pastEnd) else none
  | _ => none

/-- The first register consulted that does not exist. -/
def registerFault? (p : Processor) (i : Instruction) : Option Fault :=
  ((p.consulted i).find? (8 ≤ ·)).map noRegister

/-- A line of output that the sink does not take as a whole. -/
def outputFault? (p : Processor) : Instruction → Option Fault
  | .print reg => if p.sink.accepts (printedLine (p.value reg)) then none else some .output
  | _ => none

/-- What is wrong with an instruction: the first of three faults. -/
def executionFault? (p : Processor) (i : Instruction) : Option Fault :=
  p.callFault? i <|> p.registerFault? i <|> p.outputFault? i

/-- What is wrong with the next step: a fault of the bytes at the program counter, or else one of the
instruction that they stand for. -/
def fault? (p : Processor) : Option Fault :=
  p.decodeFault?.map .decode <|> p.upcoming?.bind p.executionFault?

theorem registerFault?_eq_none (h : ∀ reg ∈ p.consulted i, reg < 8) : p.registerFault? i = none := by
  simpa [registerFault?] using h

theorem executionFault?_of_register {reg : UInt8} {rest : List UInt8}
    (hcall : p.callFault? i = none) (h : p.consulted i = reg :: rest) (hreg : ¬ reg < 8) :
    p.executionFault? i = some (noRegister reg) := by
  have hge : 8 ≤ reg := UInt8.not_lt.mp hreg
  simp [executionFault?, hcall, registerFault?, h, hge]

/-- Nothing is wrong with an instruction that succeeds. -/
theorem Effect.executionFault?_eq (h : Effect p i k q log) : p.executionFault? i = none := by
  have hregisters : ∀ reg ∈ p.consulted i, reg < 8 := by
    cases h with
    | alu hreg hother => simpa [consulted, hreg] using hother
    | _ => simp_all [consulted]
  have hcall : p.callFault? i = none := by
    cases h with
    | call hreg hfits => exact if_neg (by omega)
    | _ => rfl
  have houtput : p.outputFault? i = none := by
    cases h with
    | print hreg hfits => exact if_pos hfits
    | _ => rfl
  simp [executionFault?, hcall, registerFault?_eq_none hregisters, houtput]

/-- An instruction that fails does so for the first thing that is wrong with it. -/
theorem Failure.executionFault?_eq (h : Failure p i e q log) (hlength : p.counter + i.length ≤ 256) :
    p.executionFault? i = some e := by
  cases h with
  | loadImmediate hreg | print hreg | alu hreg | push hreg | retEmpty hreg | ret hreg | jump hreg =>
    exact executionFault?_of_register rfl rfl hreg
  | refused hreg hfull =>
    have hregister : p.registerFault? (.print _) = none :=
      registerFault?_eq_none (by simpa [consulted] using hreg)
    simp [executionFault?, callFault?, hregister, outputFault?, hfull]
  | aluSecond hreg hsecond =>
    simp [executionFault?, callFault?, registerFault?, consulted, UInt8.not_le.mpr hreg,
      UInt8.not_lt.mp hsecond]
  | pop hreg hnonempty => exact executionFault?_of_register rfl (if_neg hnonempty) hreg
  | callAddress hfull =>
    have hend : p.counter = 254 := by
      simp only [Instruction.length, Instruction.operands, List.length_cons, List.length_nil]
        at hlength
      omega
    simp [executionFault?, callFault?, hend, pastEnd]
  | call hreg hfits => exact executionFault?_of_register (if_neg (by omega)) rfl hreg
  | equalTaken hreg hequal => exact executionFault?_of_register rfl (if_pos hequal) hreg
  | unequalTaken hreg hunequal =>
    exact executionFault?_of_register rfl (if_neg (by simp [hunequal])) hreg

/-! ## Faults of a step -/

/-- **A step fails exactly when something is wrong, with the first fault that there is.**  In a
running processor that some history leads to, the faults are these, in this order: the program counter
is past the end of memory; the byte at it is no opcode; an operand is past the end of memory; a call
has no room for its return address; a register consulted does not exist; the sink does not take a line
of output. -/
theorem step_error_iff (h : p.Reachable) (hrun : p.status = .running) (e : Fault) :
    (step p).result = .error e ↔ p.fault? = some e := by
  rw [step_of_running hrun]
  rcases decode_cases h.counter_le with ⟨d, hfault, hdec⟩ | ⟨i, hfault, hi, hlength, hdec⟩
  · simp [fault?, hfault, hdec]
  · have hsame : p.fault? = p.executionFault? i := by simp [fault?, hfault, hi]
    rw [hsame, hdec]
    rcases effect_or_failure p i with ⟨k, q, log, heffect⟩ | ⟨d, q, log, hfail⟩
    · simp [heffect.execute_eq, heffect.executionFault?_eq]
    · simp [hfail.execute_eq, hfail.executionFault?_eq hlength]

/-- A pop into a register that does not exist passes while the stack is empty, and the addition of two
such registers behind it fails with the first. -/
theorem step_error_iff_pop_add :
    let p := loaded .unlimited [0x46, 8, 0xA0, 9, 10]
    ((p.Reachable ∧ p.status = .running) ∧ ∀ e, (step p).result ≠ .error e) ∧
    ((p.after 1).Reachable ∧ (p.after 1).status = .running) ∧
      (step (p.after 1)).result = .error (noRegister 9) := by
  intro p
  have hp : p.Reachable := reachable_loaded (by decide) _
  have hrun : p.status = .running := by decide +kernel
  have hrun' : (p.after 1).status = .running := by decide +kernel
  have hnone : p.fault? = none := by decide +kernel
  have hsome : (p.after 1).fault? = some (noRegister 9) := by decide +kernel
  refine ⟨⟨⟨hp, hrun⟩, fun e he => ?_⟩, ⟨hp.after 1, hrun'⟩, ?_⟩
  · rw [step_error_iff hp hrun, hnone] at he
    cases he
  · exact (step_error_iff (hp.after 1) hrun' _).mpr hsome

end LS8.Processor
