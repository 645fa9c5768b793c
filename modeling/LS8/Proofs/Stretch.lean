import LS8.Proofs.Steps

/-!
# Stretches of successful steps

`Performs p i q` is one successful step: the running processor `p` carries out the instruction `i`
at its program counter and is `q` afterwards.  A `Stretch` is any number of these in a row.  It
lists every state that a step was taken in together with the instruction carried out there, so that
a condition on all of them is a condition on the members of a list.  Nothing is said about where the
instructions come from; a program may rewrite itself on the way.

`performs_iff` reduces a step to a case of `Effect`, and `Stretch.keeps` carries an invariant along
a stretch.  `Stretch.of_along` makes a stretch of the steps of `after`.
-/

namespace LS8.Processor

/-! ## One step -/

/-- A successful step of the running processor `p`, which carries out `i` and gives `q`. -/
structure Performs (p : Processor) (i : Instruction) (q : Processor) : Prop where
  running : p.status = .running
  decoded : (Decoding.instruction p.memory.read p.counter).result = .ok i
  stepped : ∃ status log, step p = ⟨.ok status, q, log⟩

/-- A step succeeds exactly when the instruction does, and it ends with the move of the program
counter. -/
theorem performs_iff {p q : Processor} {i : Instruction} :
    p.Performs i q ↔
      p.status = .running ∧ (Decoding.instruction p.memory.read p.counter).result = .ok i ∧
        ∃ k p' log, Effect p i k p' log ∧ q = p'.follow i k := by
  constructor
  · rintro ⟨hrun, hdec, status, log, hstep⟩
    refine ⟨hrun, hdec, ?_⟩
    rw [step_of_running hrun, hdec] at hstep
    rcases hx : execute i p with ⟨e | k, p', log'⟩
    · simp [hx] at hstep
    · simp only [hx, Outcome.mk.injEq] at hstep
      exact ⟨k, p', log', Effect.of_execute hx, hstep.2.1.symm⟩
  · rintro ⟨hrun, hdec, k, p', log, heffect, rfl⟩
    refine ⟨hrun, hdec, ?_⟩
    rw [step_of_running hrun, hdec]
    simp only [heffect.execute_eq]
    exact ⟨_, _, rfl⟩

theorem performs_iff_step {p q : Processor} {i : Instruction} :
    p.Performs i q ↔
      p.status = .running ∧ (Decoding.instruction p.memory.read p.counter).result = .ok i ∧
        (step p).result.isOk ∧ (step p).state = q := by
  constructor
  · rintro ⟨hrun, hdec, status, log, hstep⟩
    exact ⟨hrun, hdec, by rw [hstep]; rfl, by rw [hstep]⟩
  · rintro ⟨hrun, hdec, hok, rfl⟩
    refine ⟨hrun, hdec, ?_⟩
    rcases hstep : step p with ⟨e | status, q, log⟩
    · simp [hstep, Except.isOk, Except.toBool] at hok
    · exact ⟨status, log, rfl⟩

/-- A step of a running processor that succeeds carries an instruction out. -/
theorem exists_performs {p : Processor} {status : Status} (hrun : p.status = .running)
    (h : (step p).result = .ok status) : ∃ i, p.Performs i (step p).state := by
  cases hdec : (Decoding.instruction p.memory.read p.counter).result with
  | error e => simp [step_of_running hrun, hdec] at h
  | ok i => exact ⟨i, performs_iff_step.mpr ⟨hrun, hdec, by rw [h]; rfl, rfl⟩⟩

theorem Performs.result {p q : Processor} {i : Instruction} (h : p.Performs i q) :
    (step p).result = .ok q.status := by
  obtain ⟨hrun, -, status, log, hstep⟩ := h
  have hresult : (step p).result = .ok status := by rw [hstep]
  obtain ⟨hstatus, -⟩ := step_counts hrun hresult
  rw [hresult, ← hstatus, hstep]

/-- A step writes no cell but the one below the stack pointer. -/
theorem Performs.cell_eq {p q : Processor} {i : Instruction} {a : UInt8} (h : p.Performs i q)
    (ha : a ≠ p.stackPointer - 1) : q.memory.cell a = p.memory.cell a := by
  obtain ⟨-, -, k, p', log, heffect, rfl⟩ := performs_iff.mp h
  rw [(follow_frame p' i k).1, heffect.cell_eq ha]

/-! ## Many steps -/

/-- The instructions, each with the state in which it is carried out if they are carried out in
turn. -/
def along (p : Processor) : List Instruction → List (Processor × Instruction)
  | [] => []
  | i :: rest => (p, i) :: along (step p).state rest

/-- A stretch of successful steps from one processor to another, with the state before each step
and the instruction that the step carried out. -/
inductive Stretch : Processor → List (Processor × Instruction) → Processor → Prop
  | nil (p : Processor) : Stretch p [] p
  | cons {p q r : Processor} {i : Instruction} {steps : List (Processor × Instruction)} :
      p.Performs i q → Stretch q steps r → Stretch p ((p, i) :: steps) r

namespace Stretch

variable {p q r : Processor} {i : Instruction} {steps more : List (Processor × Instruction)}

theorem cons_iff {s : Processor} :
    Stretch p ((s, i) :: steps) r ↔
      s = p ∧ p.Performs i (step p).state ∧ Stretch (step p).state steps r := by
  constructor
  · intro h
    cases h with
    | cons hstep htail =>
      obtain ⟨-, -, -, rfl⟩ := performs_iff_step.mp hstep
      exact ⟨rfl, hstep, htail⟩
  · rintro ⟨rfl, hstep, htail⟩
    exact .cons hstep htail

/-- A stretch can be cut at any point. -/
theorem of_append (h : Stretch p (steps ++ more) r) :
    ∃ q, Stretch p steps q ∧ Stretch q more r := by
  induction steps generalizing p with
  | nil => exact ⟨p, .nil p, h⟩
  | cons s steps ih =>
    obtain ⟨rfl, hstep, htail⟩ := cons_iff.mp h
    obtain ⟨q, hfirst, hrest⟩ := ih htail
    exact ⟨q, .cons hstep hfirst, hrest⟩

theorem of_single {s : Processor} (h : Stretch p [(s, i)] q) : s = p ∧ p.Performs i q := by
  obtain ⟨rfl, hstep, htail⟩ := cons_iff.mp h
  cases htail
  exact ⟨rfl, hstep⟩

/-- What every step of a stretch keeps, the stretch keeps. -/
theorem keeps (Keeps : Processor → Prop) (h : Stretch p steps q) (hstart : Keeps p)
    (hstep : ∀ s ∈ steps, ∀ next, s.1.Performs s.2 next → Keeps s.1 → Keeps next) : Keeps q := by
  induction h with
  | nil => exact hstart
  | cons hfirst _ ih =>
    have hnext := hstep _ (List.mem_cons_self ..) _ hfirst hstart
    exact ih hnext fun s hs => hstep s (List.mem_cons_of_mem _ hs)

/-- Instructions that are each found and carried out in turn make a stretch. -/
theorem of_along {instructions : List Instruction}
    (h : ∀ s ∈ along p instructions, s.1.status = .running ∧
      (Decoding.instruction s.1.memory.read s.1.counter).result = .ok s.2 ∧
        (step s.1).result.isOk) :
    Stretch p (along p instructions) (p.after instructions.length) := by
  induction instructions generalizing p with
  | nil => exact .nil p
  | cons i rest ih =>
    obtain ⟨hrun, hdec, hok⟩ := h (p, i) (List.mem_cons_self ..)
    have hstep : p.Performs i (step p).state := performs_iff_step.mpr ⟨hrun, hdec, hok, rfl⟩
    exact .cons hstep (ih fun s hs => h s (List.mem_cons_of_mem _ hs))

end Stretch

end LS8.Processor
