import LS8.Proofs.LogLines
import LS8.Proofs.Stores
import LS8.Proofs.Tracing
import LS8.Proofs.Trail
import LS8.Proofs.Upcoming

/-!
# Replaying a log

The log of a processor is written by different hands.  A decoded instruction is reported before it is
carried out, a push after the byte is stored, a pop after the register is written, and the instruction may
still fail after that.  All the same nothing is missing and nothing is wrong: a byte is reported as pushed
exactly if it is stored, and an instruction is reported exactly if it is decoded.

`Chronicle` says what a log has to do with the steps that were attempted and with the processors before and
after.  It holds of one step, whatever becomes of it, and chronicles of what happens in a row make up one
chronicle.  So it holds of a history, and as a line can be read back the lines alone are enough to replay
the memory and the way of the program counter (`log_replays`).
-/

namespace LS8.Processor

variable {p q r : Processor} {i : Instruction} {e : Event} {cell value : UInt8}

/-! ## Attempts -/

/-- The address, the opcode byte and the assembly text of the next instruction, if it can be decoded. -/
def decoded? (p : Processor) : Option (Nat × UInt8 × String) :=
  (Decoding.instruction p.memory.read p.counter).result.toOption.map fun i =>
    (p.counter, p.opcode, i.text)

/-- The next instruction can be decoded but fails. -/
def failsDecoded (p : Processor) : Bool := p.decoded?.isSome && !(step p).result.isOk

/-! ## The report of a step -/

/-- What an instruction reports, with what it stores in front: one event at most, and the one of a push
exactly if it stores something. -/
inductive Report (p : Processor) : List (UInt8 × UInt8) → List Event → Prop
  | silent : Report p [] []
  | bytePushed (value cell : UInt8) : Report p [(cell, value)] [.bytePushed value cell]
  | registerPushed (reg value cell : UInt8) :
      Report p [(cell, value)] [.registerPushed reg value cell]
  | popped (reg : UInt8) :
      Report p [] [.popped (p.memory.cell p.stackPointer) p.stackPointer reg]
  | stackEmpty (reg : UInt8) : Report p [] [.stackEmpty p.counter reg]

/-- An instruction gives one of these reports, even if it fails afterwards. -/
theorem report_execute (p : Processor) (i : Instruction) :
    Report p (p.stores i) (execute i p).log := by
  rcases effect_or_failure p i with ⟨k, q, log, h⟩ | ⟨e, q, log, h⟩
  · rw [h.execute_eq]
    cases h with
    | push h =>
      rw [stores, if_pos h]
      exact .registerPushed _ _ _
    | call _ fits =>
      rw [stores, if_pos fits]
      exact .bytePushed _ _
    | pop | ret => exact .popped _
    | popEmpty | retEmpty => exact .stackEmpty _
    | _ => exact .silent
  · rw [h.execute_eq]
    cases h with
    | push h | callAddress h =>
      rw [stores, if_neg h]
      exact .silent
    | call _ fits =>
      -- The register is missing, but that comes to light after the push.
      rw [stores, if_pos fits]
      exact .bytePushed _ _
    | retEmpty => exact .stackEmpty _
    | _ => exact .silent

namespace Report

variable {stored : List (UInt8 × UInt8)} {log : List Event}

theorem filterMap_push? (h : Report p stored log) : log.filterMap Event.push? = stored := by
  cases h <;> rfl

theorem filterMap_decode? (h : Report p stored log) : log.filterMap Event.decode? = [] := by
  cases h <;> rfl

/-- A byte that is reported as popped was on top of the stack, and nothing is stored then. -/
theorem cell_of_pop? (h : Report p stored log) (he : e ∈ log)
    (hpop : e.pop? = some (cell, value)) : p.memory.cell cell = value ∧ stored = [] := by
  cases h with
  | popped =>
    obtain rfl := List.mem_singleton.mp he
    cases hpop
    exact ⟨rfl, rfl⟩
  | silent => cases he
  | bytePushed | registerPushed | stackEmpty =>
    obtain rfl := List.mem_singleton.mp he
    cases hpop

end Report

/-- A step reports the instruction that it decodes, and then what the instruction reports. -/
theorem log_cases (hrun : p.status = .running) :
    (∃ i, p.Attempts i ∧
      (step p).log = p.announcement ++ .decoded p.counter i :: (execute i p).log) ∨
    (∀ i, ¬ p.Attempts i) ∧ (step p).log = p.announcement := by
  rcases step_cases hrun with ⟨d, hnone, hstep⟩ | ⟨i, hi, -⟩
  · right
    rw [hstep]
    exact ⟨hnone, rfl⟩
  · left
    refine ⟨i, hi, ?_⟩
    rw [log_step hrun, work, hi.1, hi.2]

/-- A snapshot is none of what a replay goes by. -/
theorem announcement_says_nothing (he : e ∈ p.announcement) :
    e.push? = none ∧ e.pop? = none ∧ e.decode? = none := by
  rw [announcement] at he
  split_ifs at he
  · obtain rfl := List.mem_singleton.mp he
    exact ⟨rfl, rfl, rfl⟩
  · cases he

theorem push?_announcement (p : Processor) : p.announcement.filterMap Event.push? = [] :=
  List.filterMap_eq_nil_iff.mpr fun _ he => (announcement_says_nothing he).1

theorem decode?_announcement (p : Processor) : p.announcement.filterMap Event.decode? = [] :=
  List.filterMap_eq_nil_iff.mpr fun _ he => (announcement_says_nothing he).2.2

/-- A step reports what it stores. -/
theorem push?_step (hrun : p.status = .running) :
    (step p).log.filterMap Event.push? = p.storing := by
  rcases log_cases hrun with ⟨i, hi, hlog⟩ | ⟨hnone, hlog⟩
  · rw [hlog, hi.storing_eq, List.filterMap_append, push?_announcement,
      ← (p.report_execute i).filterMap_push?]
    rfl
  · rw [hlog, storing_of_not_attempts hnone, push?_announcement]

/-- Up to where it reports a byte as popped, a step has stored nothing. -/
theorem pop?_step (hrun : p.status = .running) {before rest : List Event}
    (hsplit : (step p).log = before ++ e :: rest) (hpop : e.pop? = some (cell, value)) :
    (p.memory.storeAll (before.filterMap Event.push?)).cell cell = value := by
  have he : e ∈ (step p).log := by simp [hsplit]
  have hannounced : e ∉ p.announcement := by
    intro hmem
    rw [(announcement_says_nothing hmem).2.1] at hpop
    cases hpop
  rcases log_cases hrun with ⟨i, hi, hlog⟩ | ⟨-, hlog⟩
  · have hexecute : e ∈ (execute i p).log := by
      rw [hlog, List.mem_append, List.mem_cons] at he
      rcases he with hmem | rfl | hexecute
      · exact absurd hmem hannounced
      · cases hpop
      · exact hexecute
    obtain ⟨hcell, hstores⟩ := (p.report_execute i).cell_of_pop? hexecute hpop
    have hnothing := push?_step hrun
    rw [hi.storing_eq, hstores, hsplit, List.filterMap_append] at hnothing
    rw [(List.append_eq_nil_iff.mp hnothing).1, Memory.storeAll_nil, hcell]
  · rw [hlog] at he
    exact absurd he hannounced

theorem Attempts.decoded?_eq (h : p.Attempts i) :
    p.decoded? = some (p.counter, i.operation.opcode, i.text) := by
  obtain ⟨-, hgives, -⟩ := (Decoding.ends_instruction _ _).of_ok h.2
  have hopcode : p.opcode = i.operation.opcode :=
    peek_eq_of_read (Fetch.gives_cons.mp hgives).1
  rw [decoded?, h.2, ← hopcode]
  rfl

theorem decoded?_of_not_attempts (hrun : p.status = .running) (h : ∀ i, ¬ p.Attempts i) :
    p.decoded? = none := by
  cases hdec : (Decoding.instruction p.memory.read p.counter).result with
  | error d =>
    rw [decoded?, hdec]
    rfl
  | ok i => exact absurd ⟨hrun, hdec⟩ (h i)

/-- A step reports the instruction that it decodes, with the opcode byte that is in memory. -/
theorem decode?_step (hrun : p.status = .running) :
    (step p).log.filterMap Event.decode? = p.decoded?.toList := by
  rcases log_cases hrun with ⟨i, hi, hlog⟩ | ⟨hnone, hlog⟩
  · rw [hlog, hi.decoded?_eq, List.filterMap_append, decode?_announcement, List.filterMap_cons,
      (p.report_execute i).filterMap_decode?]
    rfl
  · rw [hlog, decoded?_of_not_attempts hrun hnone, decode?_announcement]
    rfl

/-! ## The count of steps -/

/-- A step is counted if it carries an instruction out. -/
theorem steps_step (hrun : p.status = .running) :
    (step p).state.steps = p.steps + UInt64.ofNat p.performed?.toList.length := by
  cases hstep : (step p).result with
  | error e =>
    rw [performed?_eq_none_iff.mpr (.inr ⟨e, hstep⟩), (step_error_frame hstep).2.2.2.1]
    exact (UInt64.add_zero _).symm
  | ok status =>
    obtain ⟨i, hi⟩ := exists_performs hrun hstep
    rw [performed?_eq_some_iff.mpr hi, (step_counts hrun hstep).2]
    rfl

/-- An instruction that is decoded is carried out or fails. -/
theorem length_decoded? (hrun : p.status = .running) :
    p.decoded?.toList.length =
      p.performed?.toList.length + ([p].filter failsDecoded).length := by
  cases hstep : (step p).result with
  | error e =>
    rw [performed?_eq_none_iff.mpr (.inr ⟨e, hstep⟩)]
    cases hdec : p.decoded? <;> simp [failsDecoded, hdec, hstep, Except.isOk, Except.toBool]
  | ok status =>
    obtain ⟨i, hi⟩ := exists_performs hrun hstep
    have hattempts : p.Attempts i := ⟨hi.1, hi.decoded⟩
    rw [performed?_eq_some_iff.mpr hi, hattempts.decoded?_eq]
    simp [failsDecoded, hstep, Except.isOk, Except.toBool]

/-! ## Chronicles -/

/-- A log tells what there is to tell of some attempts that lead from one processor to another. -/
structure Chronicle (p : Processor) (attempts : List Processor) (log : List Event)
    (q : Processor) : Prop where
  /-- The bytes pushed are all that is stored. -/
  memory : q.memory = p.memory.storeAll (log.filterMap Event.push?)
  /-- A byte is popped from where the bytes pushed before have put it. -/
  pops : ∀ before e rest cell value, log = before ++ e :: rest → e.pop? = some (cell, value) →
    (p.memory.storeAll (before.filterMap Event.push?)).cell cell = value
  /-- The instructions decoded are those of the attempts. -/
  decodings : log.filterMap Event.decode? = attempts.filterMap decoded?
  /-- The attempts that succeed are counted. -/
  steps : q.steps = p.steps + UInt64.ofNat (attempts.filterMap performed?).length
  /-- An attempt that decodes an instruction carries it out or fails. -/
  count : (attempts.filterMap decoded?).length =
    (attempts.filterMap performed?).length + (attempts.filter failsDecoded).length

namespace Chronicle

variable {attempts attempts' : List Processor} {log log' : List Event}

/-- If nothing is attempted and nothing reported, the memory and the count of steps are the same. -/
theorem nil (hmemory : q.memory = p.memory) (hsteps : q.steps = p.steps) : Chronicle p [] [] q :=
  ⟨hmemory, by simp, rfl, hsteps.trans (UInt64.add_zero _).symm, rfl⟩

theorem trans (h : Chronicle p attempts log q) (h' : Chronicle q attempts' log' r) :
    Chronicle p (attempts ++ attempts') (log ++ log') r where
  memory := by
    rw [h'.memory, h.memory, List.filterMap_append, Memory.storeAll_append]
  pops before e rest cell value hsplit hpop := by
    -- The pop is in the second log, with some of that in front, or it is in the first.
    rcases List.append_eq_append_iff.mp hsplit with ⟨front, rfl, hlog⟩ | ⟨back, hlog, hback⟩
    · rw [List.filterMap_append, Memory.storeAll_append, ← h.memory]
      exact h'.pops _ _ _ _ _ hlog hpop
    · cases back with
      | nil =>
        obtain rfl : log' = e :: rest := hback.symm
        rw [List.append_nil] at hlog
        rw [← hlog, ← h.memory]
        exact h'.pops [] e rest cell value rfl hpop
      | cons f back =>
        obtain ⟨rfl, -⟩ := List.cons.inj hback
        exact h.pops _ _ _ _ _ hlog hpop
  decodings := by
    rw [List.filterMap_append, List.filterMap_append, h.decodings, h'.decodings]
  steps := by
    rw [h'.steps, h.steps, List.filterMap_append, List.length_append, UInt64.ofNat_add,
      UInt64.add_assoc]
  count := by
    simp only [List.filterMap_append, List.filter_append, List.length_append, h.count, h'.count]
    omega

theorem of_step (hrun : p.status = .running) : Chronicle p [p] (step p).log (step p).state where
  memory := by rw [memory_step, push?_step hrun]
  pops before e rest cell value hsplit hpop := pop?_step hrun hsplit hpop
  decodings := by
    rw [decode?_step hrun]
    cases hdec : p.decoded? <;> simp [hdec]
  steps := by
    rw [steps_step hrun]
    cases hperformed : p.performed? <;> simp [hperformed]
  count := by
    have hlength := length_decoded? hrun
    cases hdec : p.decoded? <;> cases hperformed : p.performed? <;> simp_all

/-- The log of a stretch of steps is a chronicle of its trail. -/
theorem of_advance (n : Nat) (p : Processor) :
    Chronicle p (p.trail n) (advance n p).log (advance n p).state := by
  induction n, p using advance_induction with
  | zero p => exact nil rfl rfl
  | halted n p hrun =>
    rw [trail_of_halted hrun, advance_of_halted hrun]
    exact nil rfl rfl
  | error n p e hrun hstep =>
    rw [trail_succ_of_error hrun hstep, advance_succ_of_error hrun hstep]
    exact of_step hrun
  | ok n p status hrun hstep ih =>
    rw [trail_succ_of_ok hrun hstep, advance_succ_of_ok hrun hstep]
    exact (of_step hrun).trans ih

/-- The log of an action is a chronicle of its trail, unless the action is a load. -/
theorem of_perform {a : Action} {o : Outcome Processor ActionError (Option Status)}
    (h : p.perform a = some o) (hload : ∀ program, a ≠ .load program) :
    Chronicle p (a.trail p) o.log o.state := by
  rcases perform_cases h with ⟨n, htrail, hstate, hlog⟩ | ⟨program, rfl, -⟩ |
    ⟨on, rfl, hstate, hlog⟩
  · rw [htrail, hstate, hlog]
    exact of_advance n p
  · exact absurd rfl (hload program)
  · rw [hlog, hstate]
    exact nil rfl rfl

/-- The log of a history without loads is a chronicle of its trail. -/
theorem of_reaches {history : List Action} (h : p.Reaches history q)
    (hload : ∀ program, .load program ∉ history) :
    Chronicle p (p.trailAlong history) (p.logAlong history) q := by
  induction h with
  | nil => exact nil rfl rfl
  | @snoc history q a o hbefore hlast ih =>
    have hbefore' := ih fun program hmem => hload program (List.mem_append_left _ hmem)
    have hlast' : Chronicle q (a.trail q) o.log o.state :=
      of_perform hlast fun program ha => hload program (by simp [ha])
    rw [trailAlong_append hbefore, logAlong_append hbefore]
    simpa [trailAlong, logAlong, hlast] using hbefore'.trans hlast'

end Chronicle

/-! ## The lines of a log -/

/-- The lines that a history writes to a log that shows everything. -/
def linesAlong (history : List Action) (p : Processor) : List String :=
  (Log.shown .trace (p.logAlong history)).map Event.line

theorem linesAlong_eq (history : List Action) (p : Processor) :
    p.linesAlong history = (p.logAlong history).map Event.line := by
  have hshown : Log.shown .trace (p.logAlong history) = p.logAlong history :=
    List.filter_eq_self.mpr fun e _ => by cases e <;> rfl
  rw [linesAlong, hshown]

/-- **The lines of a log replay the run.**  Take any processor, any history of it that does not load
anything, and the lines that it writes to a log that shows everything.  The bytes pushed, as the lines tell
them and in their order, make the memory before into the memory after.  A line that tells of a pop has the
byte that is in its cell after the pushes of the lines before.  The lines of instructions have the
addresses, opcodes and assembly texts of the attempts that decoded something, in order.  So there are as
many of them as steps that were carried out, and counted, and attempts that failed after decoding. -/
theorem log_replays {history : List Action} (h : p.Reaches history q)
    (hload : ∀ program, .load program ∉ history) :
    let lines := p.linesAlong history
    let attempts := p.trailAlong history
    q.memory = p.memory.storeAll (lines.filterMap Log.push?) ∧
    (∀ before line rest cell value, lines = before ++ line :: rest →
      Log.pop? line = some (cell, value) →
      (p.memory.storeAll (before.filterMap Log.push?)).cell cell = value) ∧
    lines.filterMap Log.decode? = attempts.filterMap decoded? ∧
    q.steps = p.steps + UInt64.ofNat (attempts.filterMap performed?).length ∧
    (lines.filterMap Log.decode?).length =
      (attempts.filterMap performed?).length + (attempts.filter failsDecoded).length := by
  intro lines attempts
  have hchronicle : Chronicle p attempts (p.logAlong history) q := .of_reaches h hload
  have hlines : lines = (p.logAlong history).map Event.line := linesAlong_eq history p
  have hdecodings : lines.filterMap Log.decode? = attempts.filterMap decoded? := by
    rw [hlines, Log.filterMap_decode?_lines, hchronicle.decodings]
  refine ⟨?_, fun before line rest cell value hsplit hpop => ?_, hdecodings, hchronicle.steps, ?_⟩
  · rw [hlines, Log.filterMap_push?_lines, hchronicle.memory]
  · obtain ⟨front, back, hlog, rfl, hback⟩ := List.map_eq_append_iff.mp (hlines ▸ hsplit)
    obtain ⟨e, rest', rfl, rfl, -⟩ := List.map_eq_cons_iff.mp hback
    rw [Log.pop?_line] at hpop
    rw [Log.filterMap_push?_lines]
    exact hchronicle.pops front e rest' cell value hlog hpop
  · rw [hdecodings, hchronicle.count]

/-- A byte is pushed and popped, and then a call through a register that does not exist fails twice, the
second time in a single step.  Both times it has pushed its return address by then. -/
theorem log_replays_failing_call :
    let p := loaded .unlimited [0x82, 0, 7, 0x45, 0, 0x46, 1, 0x50, 9]
    let history : List Action := [.run (some 9), .step]
    let q := (step (runLimited 9 p).state).state
    let lines := ["TRACE 0x00 | 0x82 | LDI R0, 0x07", "TRACE 0x03 | 0x45 | PUSH R0",
      "DEBUG pushed R0 = 0x07 to 0xF3", "TRACE 0x05 | 0x46 | POP R1",
      "DEBUG popped 0x07 from 0xF3 into R1", "TRACE 0x07 | 0x50 | CALL R9",
      "DEBUG pushed 0x09 to 0xF3", "TRACE 0x07 | 0x50 | CALL R9", "DEBUG pushed 0x09 to 0xF2"]
    (p.Reaches history q ∧ ∀ program, .load program ∉ history) ∧ p.linesAlong history = lines ∧
    q.memory = p.memory.storeAll [(0xF3, 7), (0xF3, 9), (0xF2, 9)] ∧
    (lines.filterMap Log.decode?).length = 3 + 2 := by
  intro p history q lines
  have hrun : p.run (some 9) = some (runLimited 9 p) := rfl
  have hreaches : p.Reaches history q := (Reaches.nil.run hrun).step
  have hload : ∀ program, .load program ∉ history := by simp [history]
  have hlines : p.linesAlong history = lines := by decide +kernel
  have hpushed : lines.filterMap Log.push? = [(0xF3, 7), (0xF3, 9), (0xF2, 9)] := by
    decide +kernel
  have hattempts : ((p.trailAlong history).filterMap performed?).length = 3 ∧
      ((p.trailAlong history).filter failsDecoded).length = 2 := by decide +kernel
  clear_value q
  obtain ⟨hmemory, -, -, -, hcount⟩ := log_replays hreaches hload
  rw [hlines, hpushed] at hmemory
  rw [hlines, hattempts.1, hattempts.2] at hcount
  exact ⟨⟨hreaches, hload⟩, hlines, hmemory, hcount⟩

end LS8.Processor
