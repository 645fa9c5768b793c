import LS8.Proofs.Frame
import LS8.Proofs.LastWriter
import LS8.Proofs.Trail

/-!
# The last comparison

The flags are a memory of one comparison.  Nothing but a comparison that succeeds writes them: no other
instruction, no failure, not even that of a comparison, and neither a load nor the tracing switch.  So
after any history from a new processor they tell how the two values compared last stood to each other,
and nothing if there was no comparison (`flags_tell_last_comparison`).  The comparisons of a history are
those of the steps on its trail.

Of the flags a program sees only whether the two values were equal, and it sees that in two opposite
jumps.  One of them is always taken.
-/

namespace LS8

/-- The bits are those of exactly one of the three outcomes. -/
theorem Flags.bits_compare (a b : UInt8) :
    (compare a b).bits = if a < b then 2 else if a = b then 1 else 4 := by
  unfold compare bits
  split_ifs <;> rfl

namespace Processor

variable {p q : Processor} {i : Instruction} {reg : UInt8}

/-! ## Comparisons -/

/-- The values that the next step compares, if it carries out a comparison. -/
def comparison? (p : Processor) : Option (UInt8 × UInt8) :=
  p.performed?.bind fun
    | .alu .cmp reg (some other) => some (p.value reg, p.value other)
    | _ => none

/-- A comparison that is decoded has two registers. -/
theorem exists_second_of_cmp {other : Option UInt8}
    (h : (Decoding.instruction p.memory.read p.counter).result = .ok (.alu .cmp reg other)) :
    ∃ second, other = some second := by
  obtain ⟨hwell, -, -⟩ := (Decoding.ends_instruction _ _).of_ok h
  exact Option.isSome_iff_exists.mp (by simpa [Instruction.WellFormed, AluOperation.isUnary] using hwell)

/-- A step leaves in the flags what it has compared, and what was there if it has compared nothing. -/
theorem flags_step (p : Processor) :
    (step p).state.flags = (p.comparison?.map fun v => Flags.compare v.1 v.2).getD p.flags := by
  cases hperformed : p.performed? with
  | none =>
    have hnothing : p.comparison? = none := by rw [comparison?, hperformed, Option.bind_none]
    rw [hnothing]
    rcases performed?_eq_none_iff.mp hperformed with hhalted | ⟨e, he⟩
    · rw [step_of_halted hhalted]
      rfl
    · exact (step_error_frame he).2.2.1
  | some i =>
    have hi := performed?_eq_some_iff.mp hperformed
    by_cases hcompare : ∃ reg other, i = .alu .cmp reg other
    · -- `comparison?` asks for a second register, which every comparison that is decoded has.
      obtain ⟨reg, other, rfl⟩ := hcompare
      obtain ⟨second, rfl⟩ := exists_second_of_cmp hi.decoded
      obtain ⟨-, -, k, p', log, heffect, hstate⟩ := performs_iff.mp hi
      cases heffect
      rw [comparison?, hperformed, hstate]
      rfl
    · push Not at hcompare
      have hnothing : p.comparison? = none := by
        rw [comparison?, hperformed, Option.bind_some]
        split
        · exact absurd rfl (hcompare _ _)
        · rfl
      rw [hnothing]
      exact hi.touches.flags hcompare

/-- After a history the flags tell the last comparison of its steps, and what they told before if there
is none. -/
theorem Reaches.flags_eq {history : List Action} (h : p.Reaches history q) :
    q.flags = (((p.trailAlong history).filterMap comparison?).getLast?.map fun v =>
      Flags.compare v.1 v.2).getD p.flags := by
  have hfold := h.foldl Processor.flags
    (fun f s => (s.comparison?.map fun v => Flags.compare v.1 v.2).getD f) (fun s _ => s.flags_step)
    (fun _ _ => rfl) (fun _ _ => rfl)
  rw [hfold, foldl_getD, ← List.getLast?_map, List.map_filterMap]

/-! ## Conditional jumps -/

theorem Attempts.step_jumpIfEqual (h : p.Attempts (.jumpIfEqual reg)) (hreg : reg < 8) :
    (step p).result = .ok .running ∧ (step p).state =
      p.follow (.jumpIfEqual reg) (if p.flags.isEqual then .jump (p.value reg) else .next) := by
  cases hequal : p.flags.isEqual with
  | true => simp [h.step_eq (.equalTaken hreg hequal), follow, h.1]
  | false => simp [h.step_eq (.equalPassed hequal), follow, h.1]

theorem Attempts.step_jumpIfNotEqual (h : p.Attempts (.jumpIfNotEqual reg)) (hreg : reg < 8) :
    (step p).result = .ok .running ∧ (step p).state =
      p.follow (.jumpIfNotEqual reg) (if p.flags.isEqual then .next else .jump (p.value reg)) := by
  cases hequal : p.flags.isEqual with
  | true => simp [h.step_eq (.unequalPassed hequal), follow, h.1]
  | false => simp [h.step_eq (.unequalTaken hreg hequal), follow, h.1]

/-- The processor with another opcode at the program counter. -/
def withOpcode (p : Processor) (op : Operation) : Processor :=
  { p with memory := p.memory.withCell p.counter.toUInt8 op.opcode }

/-- With the opcode replaced by one for as many operands, another instruction with the same operands is
decoded. -/
theorem Attempts.withOpcode {j : Instruction} (h : p.Attempts i) (hj : j.WellFormed)
    (hoperands : j.operands = i.operands) : (p.withOpcode j.operation).Attempts j := by
  obtain ⟨-, hgives, -⟩ := (Decoding.ends_instruction _ _).of_ok h.2
  obtain ⟨hopcode, hrest⟩ := Fetch.gives_cons.mp hgives
  have hcounter := Memory.lt_of_read_eq_ok hopcode
  have hlast := hrest.le (Nat.succ_le_of_lt hcounter)
  refine ⟨h.1, (Decoding.Ends.complete hj (Fetch.gives_cons.mpr ⟨?_, ?_⟩)).instruction_eq ▸ rfl⟩
  · exact (Memory.read_eq_ok hcounter).trans (congrArg _ (Memory.cell_withCell_self ..))
  · -- The operands lie behind the opcode, so they are where they were.
    rw [hoperands]
    refine hrest.congr fun a ha => Memory.read_congr (Memory.cell_withCell_of_ne fun hsame => ?_)
    rw [List.mem_range'_1] at ha
    have haddress := congrArg UInt8.toNat hsame
    simp only [Nat.toUInt8, UInt8.toNat_ofNat'] at haddress
    omega

/-! ## Histories -/

/-- **The flags tell the outcome of the last comparison.**  Whatever was done to a new processor, they are
empty if no comparison has succeeded, and otherwise they tell how the two values compared last stood to
each other as unsigned numbers.  So the jump that is taken if the last comparison found its values equal,
and the one that is taken if not, never agree: where the one is taken, the other in its place goes on to
the next instruction. -/
theorem flags_tell_last_comparison {sink : Sink} {history : List Action}
    (h : (initial sink).Reaches history p) :
    let compared := ((initial sink).trailAlong history).filterMap comparison?
    (compared = [] → p.flags.bits = 0) ∧
    (∀ a b, compared.getLast? = some (a, b) →
      p.flags.bits = if a < b then 2 else if a = b then 1 else 4) ∧
    ∀ reg, p.Attempts (.jumpIfEqual reg) → reg < 8 →
      let q := p.withOpcode .jumpIfNotEqual
      let jump := Continuation.jump (p.value reg)
      ((step p).result = .ok .running ∧ (step p).state =
        p.follow (.jumpIfEqual reg) (if p.flags.isEqual then jump else .next)) ∧
      ((step q).result = .ok .running ∧ (step q).state =
        q.follow (.jumpIfNotEqual reg) (if p.flags.isEqual then .next else jump)) := by
  intro compared
  have hflags : p.flags =
      (compared.getLast?.map fun v => Flags.compare v.1 v.2).getD Flags.clear := h.flags_eq
  refine ⟨fun hnone => ?_, fun a b hlast => ?_, fun reg hreg hlt => ⟨hreg.step_jumpIfEqual hlt, ?_⟩⟩
  · rw [hflags, hnone]
    rfl
  · rw [hflags, hlast]
    exact Flags.bits_compare a b
  · have hother : (p.withOpcode .jumpIfNotEqual).Attempts (.jumpIfNotEqual reg) :=
      hreg.withOpcode (j := .jumpIfNotEqual reg) trivial rfl
    exact hother.step_jumpIfNotEqual hlt

/-- Two comparisons in a run that reaches its limit before a conditional jump.  The second finds a greater
value. -/
theorem flags_tell_last_comparison_greater :
    let program : List UInt8 := [0xA7, 0, 1, 0x82, 0, 5, 0xA7, 0, 1, 0x55, 2]
    let history : List Action := [.load program, .run (some 3)]
    let p := (runLimited 3 (loaded .unlimited program)).state
    ((initial .unlimited).Reaches history p ∧
      ((initial .unlimited).trailAlong history).filterMap comparison? = [(0, 0), (5, 0)] ∧
      p.Attempts (.jumpIfEqual 2)) ∧
    p.flags.bits = 4 ∧ (step p).state.counter = 11 ∧
      (step (p.withOpcode .jumpIfNotEqual)).state.counter = 0 := by
  intro program history p
  have hload : (initial .unlimited).Reaches [.load program] (loaded .unlimited program) := by
    have hreaches := (Reaches.nil (p := initial .unlimited)).load program
    rwa [load_initial (by decide)] at hreaches
  have hrun : (loaded .unlimited program).run (some 3) =
      some (runLimited 3 (loaded .unlimited program)) := rfl
  have hreaches : (initial .unlimited).Reaches history p := hload.run hrun
  have hcompared : ((initial .unlimited).trailAlong history).filterMap comparison? =
      [(0, 0), (5, 0)] := by decide +kernel
  have hjump : p.Attempts (.jumpIfEqual 2) := by decide +kernel
  have hstart : p.counter = 9 ∧ p.flags.isEqual = false ∧ p.value 2 = 0 := by decide +kernel
  obtain ⟨-, hbits, hjumps⟩ := flags_tell_last_comparison hreaches
  have hgreater := hbits 5 0 (by rw [hcompared]; rfl)
  obtain ⟨⟨-, hpassed⟩, -, htaken⟩ := hjumps 2 hjump (by decide)
  clear_value p
  obtain ⟨hcounter, hunequal, hvalue⟩ := hstart
  rw [hunequal] at hpassed htaken
  refine ⟨⟨hreaches, hcompared, hjump⟩, hgreater, ?_, ?_⟩
  · rw [hpassed]
    exact congrArg (· + 2) hcounter
  · rw [htaken]
    exact congrArg UInt8.toNat hvalue

end Processor

end LS8
