import LS8.Proofs.Failure
import LS8.Proofs.Reading
import LS8.Proofs.Stretch

/-!
# What an instruction may change

An instruction owns a small part of the processor: the cells it may write (`writes`), the registers it
may set (`sets`), the flags if it compares, and the output if it prints.  A step that carries it out
leaves everything else as it was (`Performs.touches`).  Which cells and registers these are can depend
on the stack pointer, which is read before the step.

Program and stack share one memory, and the stack pointer is a register like the others.  So nothing but
the stack pointer keeps a push from writing into the program.  As long as no push and no call does, the
program in memory is the one that was loaded, and every instruction that lies in it is carried out as it
was loaded (`steps_touch_what_they_own`).
-/

namespace LS8

/-- A sink that has room for a text takes all of it. -/
theorem Sink.fitting_of_accepts {s : Sink} {text : String} (h : s.accepts text) :
    s.fitting text = text := by
  have hnothing : s.excess text = "" := (s.excess_eq_empty_iff text).mpr h
  have hwhole := s.fitting_append_excess text
  rwa [hnothing, String.append_empty] at hwhole

/-- Only a comparison gives flags. -/
theorem AluOperation.exists_value {op : AluOperation} (h : op ≠ .cmp) (a b : UInt8) :
    ∃ v, op.eval a b = .value v := by
  cases op with
  | cmp => exact absurd rfl h
  | _ => exact ⟨_, rfl⟩

namespace Processor

variable {p q r : Processor} {i : Instruction} {k : Continuation} {log : List Event}
  {steps : List (Processor × Instruction)}

/-! ## What an instruction owns -/

/-- The cells that an instruction writes, which is one at most. -/
def writes (p : Processor) : Instruction → List UInt8
  | .push _ | .call _ => [p.stackPointer - 1]
  | _ => []

/-- The registers that an instruction sets. -/
def sets (p : Processor) : Instruction → List UInt8
  | .loadImmediate reg _ => [reg]
  | .alu op reg _ => if op = .cmp then [] else [reg]
  | .push _ | .call _ => [7]
  | .pop reg | .ret reg => if p.stackPointer = stackBase then [] else [reg, 7]
  | _ => []

/-- The text that an instruction prints. -/
def prints (p : Processor) : Instruction → String
  | .print reg => printedLine (p.value reg)
  | _ => ""

namespace Effect

theorem cell_eq_of_notMem {a : UInt8} (h : Effect p i k q log) (ha : a ∉ p.writes i) :
    q.memory.cell a = p.memory.cell a := by
  cases h with
  | push | call => exact Memory.cell_withCell_of_ne (List.ne_of_not_mem_cons ha)
  | alu => rw [(finishAlu_frame p _ _).1]
  | _ => rfl

theorem value_eq_of_notMem {reg : UInt8} (h : Effect p i k q log) (hreg : reg ∉ p.sets i) :
    q.value reg = p.value reg := by
  cases h with
  | loadImmediate => exact value_withValue_of_ne (List.ne_of_not_mem_cons hreg) p _
  | @alu op dest other =>
    by_cases hop : op = .cmp
    · subst hop
      rfl
    · obtain ⟨v, hv⟩ := AluOperation.exists_value hop (p.value dest) (p.operand other)
      rw [sets, if_neg hop] at hreg
      rw [hv]
      exact value_withValue_of_ne (List.ne_of_not_mem_cons hreg) p v
  | push | call => exact value_pushed_of_ne (List.ne_of_not_mem_cons hreg) p _
  | pop _ hnonempty | ret _ hnonempty =>
    rw [sets, if_neg hnonempty, List.mem_pair, not_or] at hreg
    exact value_popped_of_ne hreg.1 hreg.2 p
  | _ => rfl

theorem flags_eq (h : Effect p i k q log) (hcompare : ∀ reg other, i ≠ .alu .cmp reg other) :
    q.flags = p.flags := by
  cases h with
  | @alu op reg other =>
    have hop : op ≠ .cmp := by
      rintro rfl
      exact hcompare reg other rfl
    obtain ⟨v, hv⟩ := AluOperation.exists_value hop (p.value reg) (p.operand other)
    rw [hv]
    rfl
  | _ => rfl

theorem sink_eq (h : Effect p i k q log) :
    q.sink = { p.sink with written := p.sink.written ++ p.prints i } := by
  cases h with
  | @print reg _ hfits =>
    show p.sink.write (printedLine (p.value reg)) = _
    rw [Sink.write, Sink.fitting_of_accepts hfits]
    rfl
  | alu => simp [prints]
  | _ => simp [prints]

end Effect

/-! ## One step -/

/-- The processor `q` differs from `p` in nothing but the count of steps, where the program goes on and
what the instruction owns. -/
structure Touches (p : Processor) (i : Instruction) (q : Processor) : Prop where
  /-- Only a push and a call write, and only the cell below the stack pointer. -/
  cells : ∀ a ∉ p.writes i, q.memory.cell a = p.memory.cell a
  registers : ∀ reg ∉ p.sets i, q.value reg = p.value reg
  /-- Only a comparison changes the flags. -/
  flags : (∀ reg other, i ≠ .alu .cmp reg other) → q.flags = p.flags
  /-- Only a print adds to the output. -/
  output : q.sink = { p.sink with written := p.sink.written ++ p.prints i }
  steps : q.steps = p.steps + 1
  tracing : q.tracing = p.tracing

theorem Performs.touches (h : p.Performs i q) : Touches p i q := by
  obtain ⟨-, -, k, p', log, heffect, rfl⟩ := performs_iff.mp h
  obtain ⟨hmemory, -, hflags, htracing, hsink, hsteps⟩ := follow_frame p' i k
  obtain ⟨-, -, hsteps', htracing'⟩ := heffect.frame
  refine ⟨fun a ha => ?_, fun reg hreg => ?_, fun hcompare => ?_, ?_, ?_, ?_⟩
  · rw [hmemory, heffect.cell_eq_of_notMem ha]
  · rw [value_follow, heffect.value_eq_of_notMem hreg]
  · rw [hflags, heffect.flags_eq hcompare]
  · rw [hsink, heffect.sink_eq]
  · rw [hsteps, hsteps']
  · rw [htracing, htracing']

/-! ## Many steps -/

/-- A cell that none of the instructions writes keeps its contents. -/
theorem Stretch.cell_eq_of_notMem {a : UInt8} (h : Stretch p steps q)
    (ha : ∀ s ∈ steps, a ∉ s.1.writes s.2) : q.memory.cell a = p.memory.cell a := by
  refine h.keeps (fun r => r.memory.cell a = p.memory.cell a) rfl ?_
  intro s hs next hstep hkept
  rw [hstep.touches.cells a (ha s hs), hkept]

/-- Every step of a stretch is taken behind the steps before it. -/
theorem Stretch.of_mem {s : Processor × Instruction} (h : Stretch p steps q) (hs : s ∈ steps) :
    ∃ before, (∀ t ∈ before, t ∈ steps) ∧ Stretch p before s.1 ∧
      s.1.Performs s.2 (step s.1).state := by
  obtain ⟨before, rest, rfl⟩ := List.append_of_mem hs
  obtain ⟨r, hbefore, hrest⟩ := h.of_append
  obtain ⟨rfl, hstep, -⟩ := Stretch.cons_iff.mp hrest
  exact ⟨before, fun t ht => List.mem_append_left _ ht, hbefore, hstep⟩

/-- An instruction that lies in unchanged cells is decoded as before. -/
theorem instruction_eq_of_cells {L n : Nat} {m m' : Memory 256}
    (hsame : ∀ a : UInt8, a.toNat < L → m'.cell a = m.cell a)
    (hi : (Decoding.instruction m'.read n).result = .ok i) (hL : n + i.length ≤ L) :
    (Decoding.instruction m.read n).result = .ok i := by
  have hends := Decoding.ends_instruction m'.read n
  obtain ⟨-, -, hfetched⟩ := hends.of_ok hi
  rw [(hends.congr fun a ha => ?_).instruction_eq, hi]
  rw [hfetched, List.mem_range'_1] at ha
  have hlt : a.toUInt8.toNat < L := by
    have hle : a.toUInt8.toNat ≤ a := by simpa using Nat.mod_le a 256
    omega
  exact (Memory.read_congr (hsame _ hlt)).symm

/-- The bytes of an instruction in a program are those of the program. -/
theorem encode_eq_of_holds {program : List UInt8} {n : Nat} {m : Memory 256}
    (hholds : m.Holds 0 program) (hi : (Decoding.instruction m.read n).result = .ok i)
    (hL : n + i.length ≤ program.length) : i.encode = (program.drop n).take i.length := by
  obtain ⟨-, hgives, -⟩ := (Decoding.ends_instruction m.read n).of_ok hi
  have hlength := i.length_encode
  refine List.ext_getElem (by simp; omega) fun k hk hk' => ?_
  have hread := hgives.getElem hk
  have hcell := Memory.holds_iff_cell.mp hholds (n + k) (by omega)
  rw [Memory.read_eq_ok (Memory.lt_of_read_eq_ok hread), Except.ok.injEq] at hread
  rw [List.getElem_take, List.getElem_drop, ← hcell, ← hread]
  simp

/-- **An instruction touches what it owns, and a program that is not pushed into stays what it was.**  A
step changes no cell, register, flag or output but those of its instruction, and counts one.  If over a
stretch of any length each push and each call stays out of the first `L` cells, these cells are the same
in every state.  Then each instruction that is carried out and lies in them is the one that was in them
at the start; if a program of `L` bytes was there, its bytes are those of the program. -/
theorem steps_touch_what_they_own (p : Processor) :
    (∀ i q, p.Performs i q → Touches p i q) ∧
    ∀ steps q L, Stretch p steps q →
      (∀ s ∈ steps, ∀ reg, s.2 = .push reg ∨ s.2 = .call reg →
        L ≤ (s.1.stackPointer - 1).toNat) →
      (∀ a : UInt8, a.toNat < L → q.memory.cell a = p.memory.cell a ∧
        ∀ s ∈ steps, s.1.memory.cell a = p.memory.cell a) ∧
      ∀ s ∈ steps, s.1.counter + s.2.length ≤ L →
        (Decoding.instruction p.memory.read s.1.counter).result = .ok s.2 ∧
        ∀ program : List UInt8, program.length = L → p.memory.Holds 0 program →
          s.2.encode = (program.drop s.1.counter).take s.2.length := by
  refine ⟨fun i q h => h.touches, fun steps q L h hpush => ?_⟩
  have howned : ∀ s ∈ steps, ∀ a : UInt8, a.toNat < L → a ∉ s.1.writes s.2 := by
    intro s hs a ha hmem
    obtain ⟨s, i⟩ := s
    cases i with
    | push reg =>
      have := hpush _ hs reg (.inl rfl)
      rw [List.mem_singleton.mp hmem] at ha
      omega
    | call reg =>
      have := hpush _ hs reg (.inr rfl)
      rw [List.mem_singleton.mp hmem] at ha
      omega
    | _ => cases hmem
  have hcells : ∀ s ∈ steps, ∀ a : UInt8, a.toNat < L → s.1.memory.cell a = p.memory.cell a := by
    intro s hs a ha
    obtain ⟨before, hsub, hbefore, -⟩ := h.of_mem hs
    exact hbefore.cell_eq_of_notMem fun t ht => howned t (hsub t ht) a ha
  refine ⟨fun a ha => ⟨h.cell_eq_of_notMem fun s hs => howned s hs a ha,
    fun s hs => hcells s hs a ha⟩, fun s hs hL => ?_⟩
  obtain ⟨-, -, -, hstep⟩ := h.of_mem hs
  have hdecoded := instruction_eq_of_cells (hcells s hs) hstep.decoded hL
  refine ⟨hdecoded, fun program hlength hholds => ?_⟩
  exact encode_eq_of_holds hholds hdecoded (hlength ▸ hL)

/-- A program of nine bytes that pushes and calls, and then halts in its last byte. -/
theorem steps_touch_what_they_own_nine :
    let program : List UInt8 := [0x82, 0, 8, 0x45, 0, 0x50, 0, 0x00, 0x01]
    let p := loaded .unlimited program
    let steps := along p [.loadImmediate 0 8, .push 0, .call 0, .halt]
    (p.Performs (.loadImmediate 0 8) (p.after 1) ∧
      (p.after 1).stackPointer = p.stackPointer ∧ (p.after 1).steps = p.steps + 1) ∧
    (Stretch p steps (p.after 4) ∧
      (∀ s ∈ steps, ∀ reg, s.2 = .push reg ∨ s.2 = .call reg →
        9 ≤ (s.1.stackPointer - 1).toNat)) ∧
    ((p.after 3, .halt) ∈ steps ∧ (p.after 3).counter + Instruction.halt.length ≤ 9 ∧
      program.length = 9 ∧ p.memory.Holds 0 program) ∧
    (p.after 4).memory.cell 8 = p.memory.cell 8 ∧
      Instruction.halt.encode = (program.drop (p.after 3).counter).take 1 := by
  intro program p steps
  obtain ⟨hstep, hsteps⟩ := steps_touch_what_they_own p
  have hfound : ∀ s ∈ along p [.loadImmediate 0 8, .push 0, .call 0, .halt],
      s.1.status = .running ∧
        (Decoding.instruction s.1.memory.read s.1.counter).result = .ok s.2 ∧
          (step s.1).result.isOk := by decide +kernel
  have hfirst : p.Performs (.loadImmediate 0 8) (p.after 1) :=
    performs_iff_step.mpr ⟨rfl, by decide +kernel, by decide +kernel, rfl⟩
  have htouches := hstep _ _ hfirst
  have hstretch : Stretch p steps (p.after 4) := Stretch.of_along hfound
  have hfar : ∀ s ∈ steps, 9 ≤ (s.1.stackPointer - 1).toNat := by decide +kernel
  have hpush : ∀ s ∈ steps, ∀ reg, s.2 = .push reg ∨ s.2 = .call reg →
      9 ≤ (s.1.stackPointer - 1).toNat := fun s hs _ _ => hfar s hs
  have hlast : (p.after 3, Instruction.halt) ∈ steps := by
    show _ ∈ [(p, _), (p.after 1, _), (p.after 2, _), (p.after 3, _)]
    simp
  have hend : (p.after 3).counter + Instruction.halt.length ≤ 9 := by decide +kernel
  have hholds : p.memory.Holds 0 program := Memory.holds_copy_zero (by decide)
  obtain ⟨hcells, hprogram⟩ := hsteps steps _ 9 hstretch hpush
  refine ⟨⟨hfirst, ?_, htouches.steps⟩, ⟨hstretch, hpush⟩, ⟨hlast, hend, rfl, hholds⟩,
    (hcells 8 (by decide)).1, (hprogram _ hlast hend).2 program rfl hholds⟩
  rw [← value_seven, ← value_seven, htouches.registers 7 (by decide)]

end Processor

end LS8
