import LS8.Proofs.Limit
import LS8.Proofs.ListMachine
import LS8.Proofs.Reading
import LS8.Proofs.Stretch

/-!
# Straight-line programs

A straight-line program does not jump, call or return, and it leaves the stack pointer to its pushes
and pops.  Put into memory from address 0 on, with a halt behind it, such a program runs like the list
machine (`run_straightLine`): it halts after one step for each instruction and one for the halt, with
the registers, flags and output of the machine.

The program and its stack share the memory.  `OnTrack` is what every step keeps: the instructions not
carried out yet are still in memory at the program counter, and the processor represents the list
machine.  A push could destroy the first part, by writing into the program.  It does not as long as the
length of the program and the depth of the stack together are at most 244, since the cell that a push
writes, the one that the new stack pointer points to, then lies behind the last instruction.
-/

namespace LS8

/-! ## Programs -/

/-- The instruction goes on to the next one, all its registers exist, and the stack pointer is not the
destination of a value. -/
def Instruction.IsStraightLine : Instruction → Prop
  | .nop => True
  | .loadImmediate reg _ | .pop reg => reg < 8 ∧ reg ≠ 7
  | .print reg | .push reg => reg < 8
  | .alu op reg other =>
    other.isNone = op.isUnary ∧ (∀ second ∈ other, second < 8) ∧ reg < 8 ∧ (op ≠ .cmp → reg ≠ 7)
  | _ => False

instance Instruction.decidableIsStraightLine : (i : Instruction) → Decidable i.IsStraightLine
  | .nop => inferInstanceAs (Decidable True)
  | .loadImmediate reg _ | .pop reg => inferInstanceAs (Decidable (reg < 8 ∧ reg ≠ 7))
  | .print reg | .push reg => inferInstanceAs (Decidable (reg < 8))
  | .alu op reg other => inferInstanceAs (Decidable (other.isNone = op.isUnary ∧
      (∀ second ∈ other, second < 8) ∧ reg < 8 ∧ (op ≠ .cmp → reg ≠ 7)))
  | .halt | .call _ | .ret _ | .jump _ | .jumpIfEqual _ | .jumpIfNotEqual _ =>
    inferInstanceAs (Decidable False)

theorem Instruction.IsStraightLine.wellFormed {i : Instruction} (h : i.IsStraightLine) :
    i.WellFormed := by
  cases i with
  | alu op reg other => exact h.1
  | _ => trivial

/-- The bytes of a program with a halt behind it. -/
def code (program : List Instruction) : List UInt8 :=
  program.flatMap Instruction.encode ++ Instruction.halt.encode

theorem code_cons (i : Instruction) (rest : List Instruction) :
    code (i :: rest) = i.encode ++ code rest := by
  rw [code, List.flatMap_cons, List.append_assoc, code]

/-- Every instruction takes a byte at least, and so does the halt. -/
theorem length_lt_length_code (program : List Instruction) :
    program.length < (code program).length := by
  induction program with
  | nil => exact Nat.zero_lt_one
  | cons i rest ih =>
    have hpos : 0 < i.encode.length := by cases i <;> simp [Instruction.encode]
    rw [code_cons, List.length_append, List.length_cons]
    omega

namespace ListMachine

/-- The value of the second register of an arithmetic instruction, and zero if it has none. -/
def operand (m : ListMachine) : Option UInt8 → UInt8
  | some reg => m.read reg
  | none => 0

/-- Carries an instruction of a straight-line program out. -/
def carryOut (m : ListMachine) : Instruction → ListMachine
  | .loadImmediate reg v => m.write reg v
  | .print reg => { m with output := m.output ++ toString (m.read reg).toNat ++ "\n" }
  | .alu op reg other =>
    if op = .cmp then
      { m with flags := ⟨some (compare (m.read reg).toNat (m.operand other).toNat)⟩ }
    else
      m.write reg (op.number (m.read reg).toNat (m.operand other).toNat).toUInt8
  | .push reg => m.push (m.pushValue reg)
  | .pop reg => m.pop reg
  | _ => m

/-- The stack pointer is far behind bytes that leave room for the stack. -/
theorem length_le_distance {n length depth : Nat} (h : n + length + depth ≤ 244) :
    length ≤ (pointerAt depth - n.toUInt8).toNat := by
  have hn : n.toUInt8.toNat = n := Nat.mod_eq_of_lt (show n < 256 by omega)
  have hdepth : depth.toUInt8.toNat = depth := Nat.mod_eq_of_lt (show depth < 256 by omega)
  have hbase : Processor.stackBase.toNat = 244 := rfl
  rw [pointerAt, UInt8.toNat_sub, UInt8.toNat_sub, hn, hdepth, hbase]
  omega

end ListMachine

/-- A sink without a capacity takes everything. -/
theorem Sink.write_eq {s : Sink} (h : s.capacity = none) (text : String) :
    s.write text = { s with written := s.written ++ text } := by
  simp only [Sink.write, Sink.fitting, h]

theorem Sink.write_write {s : Sink} (h : s.capacity = none) (first second : String) :
    (s.write first).write second = s.write (first ++ second) := by
  have h' : (s.write first).capacity = none := h
  rw [Sink.write_eq h', Sink.write_eq h, Sink.write_eq h, String.append_assoc]

namespace Processor

variable {p : Processor} {m : ListMachine} {i : Instruction} {sink : Sink}

/-! ## One instruction -/

theorem Represents.operand_eq {other : Option UInt8} (h : p.Represents m)
    (hother : ∀ second ∈ other, second < 8) : p.operand other = m.operand other := by
  cases other with
  | none => rfl
  | some second => exact h.value_eq (hother second rfl)

theorem Represents.finishAlu {op : AluOperation} {reg : UInt8} {other : Option UInt8}
    (h : p.Represents m) (hi : (Instruction.alu op reg other).IsStraightLine) :
    (p.finishAlu reg (op.eval (p.value reg) (p.operand other))).Represents
      (m.carryOut (.alu op reg other)) := by
  obtain ⟨-, hother, hreg, hdestination⟩ := hi
  rw [AluOperation.eval_eq, h.value_eq hreg, h.operand_eq hother, ListMachine.carryOut]
  by_cases hop : op = .cmp
  · rw [if_pos hop, if_pos hop]
    exact ⟨h.general, h.pointer, h.cells, rfl⟩
  · rw [if_neg hop, if_neg hop]
    exact h.withValue (lt_seven_iff.mpr ⟨hreg, hdestination hop⟩) _

/-- The processor represents the machine and has printed its output to a sink that was as `sink` at
the beginning. -/
structure Mirrors (sink : Sink) (p : Processor) (m : ListMachine) : Prop where
  represents : p.Represents m
  printed : p.sink = sink.write m.output

/-- An instruction of a straight-line program succeeds and does what it does to the list machine.
Bytes that the stack pointer is behind stay in memory. -/
theorem Mirrors.carryOut (h : p.Mirrors sink m) (hi : i.IsStraightLine)
    (hsink : sink.capacity = none) (hdepth : m.stack.length ≤ 255) :
    ∃ q log, Effect p i .next q log ∧ q.Mirrors sink (m.carryOut i) ∧
      ∀ address data, p.memory.Holds address data →
        data.length ≤ ((m.carryOut i).pointer - address).toNat → q.memory.Holds address data := by
  have hrep := h.represents
  cases i with
  | nop => exact ⟨p, [], .nop, h, fun _ _ hholds _ => hholds⟩
  | loadImmediate reg v =>
    obtain ⟨hreg, hne⟩ : reg < 8 ∧ reg ≠ 7 := hi
    have hnext := hrep.withValue (lt_seven_iff.mpr ⟨hreg, hne⟩) v
    exact ⟨_, _, .loadImmediate hreg, ⟨hnext, h.printed⟩, fun _ _ hholds _ => hholds⟩
  | print reg =>
    have hreg : reg < 8 := hi
    have hcapacity : p.sink.capacity = none := by
      rw [h.printed]
      exact hsink
    have hfits : p.sink.accepts (printedLine (p.value reg)) := by simp [Sink.accepts, hcapacity]
    have hprinted : (p.printed (p.value reg)).sink = sink.write (m.carryOut (.print reg)).output := by
      show p.sink.write (printedLine (p.value reg)) = _
      rw [h.printed, Sink.write_write hsink, hrep.value_eq hreg, printedLine,
        ← String.append_assoc]
      rfl
    exact ⟨_, _, .print hreg hfits, ⟨⟨hrep.general, hrep.pointer, hrep.cells, hrep.flags⟩, hprinted⟩,
      fun _ _ hholds _ => hholds⟩
  | alu op reg other =>
    obtain ⟨hmemory, -, -, -, -, hsame⟩ :=
      finishAlu_frame p reg (op.eval (p.value reg) (p.operand other))
    have houtput : (m.carryOut (.alu op reg other)).output = m.output := by
      rw [ListMachine.carryOut]
      split_ifs <;> rfl
    refine ⟨_, _, .alu hi.2.2.1 hi.2.1, ⟨hrep.finishAlu hi, ?_⟩, fun _ _ hholds _ => ?_⟩
    · rw [hsame, h.printed, houtput]
    · rw [hmemory]
      exact hholds
  | push reg =>
    have hreg : reg < 8 := hi
    have hnext := hrep.pushed hdepth (p.pushValue reg)
    have hpointer := hnext.pointer
    rw [hrep.pushValue_eq hreg] at hnext hpointer
    refine ⟨_, _, .push hreg, ⟨?_, h.printed⟩, fun address data hholds hfar => ?_⟩
    · rw [hrep.pushValue_eq hreg]
      exact hnext
    · rw [stackPointer_pushed] at hpointer
      rw [memory_pushed, hpointer]
      exact hholds.withCell hfar
  | pop reg =>
    obtain ⟨hreg, hne⟩ : reg < 8 ∧ reg ≠ 7 := hi
    rcases hstack : m.stack with _ | ⟨v, rest⟩
    · have hempty : p.stackPointer = stackBase := by
        rw [hrep.pointer, ListMachine.pointer, hstack]
        rfl
      have hpop : m.carryOut (.pop reg) = m := by
        rw [ListMachine.carryOut, ListMachine.pop, hstack]
      rw [hpop]
      exact ⟨p, _, .popEmpty hempty, h, fun _ _ hholds _ => hholds⟩
    · have hnonempty := hrep.stackPointer_ne (by simp [hstack]) hdepth
      obtain ⟨-, hnext⟩ := hrep.popped hstack (lt_seven_iff.mpr ⟨hreg, hne⟩)
      have houtput : (m.carryOut (.pop reg)).output = m.output := by
        rw [ListMachine.carryOut, ListMachine.pop, hstack]
        rfl
      refine ⟨_, _, .pop hreg hnonempty, ⟨hnext, ?_⟩, fun _ _ hholds _ => hholds⟩
      rw [houtput]
      exact h.printed
  | _ => exact hi.elim

/-! ## The run of a program -/

/-- The processor is running, has the program in front of it, and mirrors the list machine. -/
structure OnTrack (sink : Sink) (program : List Instruction) (p : Processor) (m : ListMachine) :
    Prop where
  running : p.status = .running
  ahead : p.memory.Holds p.counter.toUInt8 (code program)
  mirrors : p.Mirrors sink m

/-- One instruction takes a processor on track to the next. -/
theorem OnTrack.performs {rest : List Instruction} (h : p.OnTrack sink (i :: rest) m)
    (hi : i.IsStraightLine) (hsink : sink.capacity = none) (hdepth : m.stack.length ≤ 255)
    (hspace : p.counter + (code (i :: rest)).length + (m.carryOut i).stack.length ≤ 244) :
    ∃ q, p.Performs i q ∧ q.counter + (code rest).length = p.counter + (code (i :: rest)).length ∧
      q.OnTrack sink rest (m.carryOut i) := by
  obtain ⟨hrun, hahead, hmirrors⟩ := h
  rw [code_cons, Memory.holds_append, Instruction.length_encode] at hahead
  rw [code_cons, List.length_append, Instruction.length_encode] at hspace ⊢
  obtain ⟨hcode, hrest⟩ := hahead
  obtain ⟨q, log, heffect, hnext, hkeeps⟩ := hmirrors.carryOut hi hsink hdepth
  have hdecoded := Decoding.instruction_of_holds hi.wellFormed hcode (by omega)
  have hperforms : p.Performs i (q.follow i .next) :=
    performs_iff.mpr ⟨hrun, hdecoded, .next, q, log, heffect, rfl⟩
  obtain ⟨hcounter, hstatus, -, -⟩ := heffect.frame
  have haddress : p.counter.toUInt8 + i.length.toUInt8 = (q.follow i .next).counter.toUInt8 := by
    show _ = (q.counter + i.length).toUInt8
    rw [hcounter]
    exact (UInt8.ofNat_add p.counter i.length).symm
  have hfollow : (q.follow i .next).counter = p.counter + i.length := by
    show q.counter + i.length = _
    rw [hcounter]
  refine ⟨_, hperforms, by omega, hstatus.trans hrun, ?_, ?_, ?_⟩
  · -- Only a push writes, and it writes where the new stack pointer is, behind the program.
    rw [← haddress]
    refine hkeeps _ _ hrest ?_
    rw [haddress, hfollow]
    exact ListMachine.length_le_distance (by omega)
  · exact hnext.represents.congr rfl rfl rfl
  · exact hnext.printed

/-- A processor on track carries the whole program out. -/
theorem OnTrack.lasts {program : List Instruction} (h : p.OnTrack sink program m)
    (hline : ∀ i ∈ program, i.IsStraightLine) (hsink : sink.capacity = none)
    (hspace : ∀ part ∈ program.inits,
      p.counter + (code program).length + (part.foldl ListMachine.carryOut m).stack.length ≤ 244) :
    p.Lasts program.length ∧
      (p.after program.length).OnTrack sink [] (program.foldl ListMachine.carryOut m) ∧
      (p.after program.length).counter + (code []).length = p.counter + (code program).length := by
  induction program generalizing p m with
  | nil => exact ⟨fun j hj => absurd hj (Nat.not_lt_zero j), h, rfl⟩
  | cons i rest ih =>
    have hstart := hspace [] (by simp)
    have hfirst := hspace [i] (by simp)
    rw [List.foldl_nil] at hstart
    rw [List.foldl_cons, List.foldl_nil] at hfirst
    obtain ⟨q, hperforms, hcounter, hnext⟩ :=
      h.performs (hline i (List.mem_cons_self ..)) hsink (by omega) hfirst
    have hresult := hperforms.result
    rw [hnext.running] at hresult
    obtain ⟨-, -, -, rfl⟩ := performs_iff_step.mp hperforms
    have hrestspace : ∀ part ∈ rest.inits, (step p).state.counter + (code rest).length +
        (part.foldl ListMachine.carryOut (m.carryOut i)).stack.length ≤ 244 := by
      intro part hpart
      rw [hcounter]
      exact hspace (i :: part) (by simpa using hpart)
    obtain ⟨hlasts, hend, hendcounter⟩ :=
      ih hnext (fun j hj => hline j (List.mem_cons_of_mem _ hj)) hrestspace
    rw [List.length_cons, after_succ]
    exact ⟨lasts_succ_iff.mpr ⟨hresult, hlasts⟩, hend, hendcounter.trans hcounter⟩

/-- A halt ends the program. -/
theorem OnTrack.halts (h : p.OnTrack sink [] m) (hspace : p.counter + (code []).length ≤ 256) :
    step p = ⟨.ok .halted, p.follow .halt .halt, p.announcement ++ [.decoded p.counter .halt]⟩ := by
  have hdecoded : (Decoding.instruction p.memory.read p.counter).result = .ok .halt :=
    Decoding.instruction_of_holds trivial h.ahead hspace
  rw [step_of_running h.running, hdecoded]
  rfl

/-- A new processor with a program in memory is on track. -/
theorem onTrack_loaded (program : List Instruction) (hsink : sink.capacity = none)
    (hfits : (code program).length ≤ 256) :
    (loaded sink (code program)).OnTrack sink program .initial := by
  have hrep : (loaded sink (code program)).Represents .initial := represents_machine rfl
  have hprinted : sink = sink.write "" := by rw [Sink.write_eq hsink, String.append_empty]
  exact ⟨rfl, Memory.holds_copy_zero hfits, hrep, hprinted⟩

/-- **A straight-line program runs like the list machine.**  If the program with its halt and the stack
at its deepest take at most 244 bytes together, then the program fits into a new processor, and the run
halts without a fault, after as many steps as there are instructions, the halt included.  The
registers, the stack, the flags and the output are then those of the list machine. -/
theorem run_straightLine (sink : Sink) (hsink : sink.capacity = none)
    (program : List Instruction) (hline : ∀ i ∈ program, i.IsStraightLine)
    (hspace : ∀ part ∈ program.inits, (code program).length +
      (part.foldl ListMachine.carryOut ListMachine.initial).stack.length ≤ 244) :
    let m := program.foldl ListMachine.carryOut ListMachine.initial
    (load (code program) (initial sink)).result = .ok () ∧
      ∃ q log, (load (code program) (initial sink)).state.run none = some ⟨.ok (), q, log⟩ ∧
        q.status = .halted ∧ q.steps.toNat = program.length + 1 ∧ q.Represents m ∧
        q.sink = { sink with written := sink.written ++ m.output } := by
  intro m
  have hlength : (code program).length ≤ 256 := by
    have := hspace [] (by simp)
    omega
  rw [load_initial hlength]
  refine ⟨rfl, ?_⟩
  -- The program is carried out, and leaves the processor in front of the halt.
  have hstart := onTrack_loaded program hsink hlength
  obtain ⟨hlasts, hend, hcounter⟩ := hstart.lasts hline hsink (by simpa [loaded, initial] using hspace)
  have hroom : (loaded sink (code program)).counter + (code program).length ≤ 256 := by
    simpa [loaded, initial] using hlength
  have hhalt := hend.halts (hcounter ▸ hroom)
  -- The halt is the step at which the run stops.
  have hstops : (loaded sink (code program)).StopsAt (program.length + 1) :=
    ⟨hlasts, by rw [hhalt]; simp⟩
  have hrun : (loaded sink (code program)).run none = _ :=
    run_of_stopsAt hstart.running hstops (by simp)
  rw [hhalt, after_succ', hhalt] at hrun
  refine ⟨_, _, hrun, rfl, ?_, hend.mirrors.represents.congr rfl rfl rfl, ?_⟩
  · have hcount := length_lt_length_code program
    have hsteps := hlasts.toNat_steps hstart.running (by simp [loaded, initial, UInt64.size]; omega)
    show ((after _ _).steps + 1).toNat = _
    rw [UInt64.toNat_add, hsteps]
    simp [loaded, initial]
    omega
  · show (after _ _).sink = _
    rw [hend.mirrors.printed, Sink.write_eq hsink]

/-- A sum that overflows, a comparison with the stack pointer, and more pops than pushes. -/
theorem run_straightLine_ten :
    let program : List Instruction :=
      [.loadImmediate 0 200, .loadImmediate 1 100, .alu .add 0 (some 1), .push 0, .push 7, .pop 2,
        .pop 3, .pop 4, .alu .cmp 7 (some 2), .print 3]
    ((∀ i ∈ program, i.IsStraightLine) ∧ ∀ part ∈ program.inits, (code program).length +
      (part.foldl ListMachine.carryOut ListMachine.initial).stack.length ≤ 244) ∧
    ∃ q log, (load (code program) (initial .unlimited)).state.run none = some ⟨.ok (), q, log⟩ ∧
      q.steps = 11 ∧ q.value 2 = 0xF2 ∧ q.value 3 = 44 ∧ q.flags.isGreater ∧
      q.sink.written = "44\n" := by
  intro program
  have hline : ∀ i ∈ program, i.IsStraightLine := by decide +kernel
  have hspace : ∀ part ∈ program.inits, (code program).length +
      (part.foldl ListMachine.carryOut ListMachine.initial).stack.length ≤ 244 := by
    decide +kernel
  obtain ⟨-, q, log, hrun, -, hsteps, hrep, hsink⟩ :=
    run_straightLine .unlimited rfl program hline hspace
  refine ⟨⟨hline, hspace⟩, q, log, hrun, UInt64.toNat_inj.mp hsteps, ?_, ?_, ?_, ?_⟩
  · rw [hrep.general 2 (by decide)]
    decide +kernel
  · rw [hrep.general 3 (by decide)]
    decide +kernel
  · rw [hrep.flags]
    decide +kernel
  · rw [hsink]
    decide +kernel

end Processor

end LS8
