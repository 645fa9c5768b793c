import LS8.Proofs.ListMachine

/-!
# The stack is a list

A `StackAction` is one of the three operations on the stack that instructions are made of.  A history
of such actions is carried out twice: on a processor whose stack pointer starts at its base, and on the
list machine.  As long as the list has at most 255 bytes, the processor represents the machine at every
point, and it has written no cell but those it pushed to (`Represents.performAll`).

The bound is exact.  The push onto 255 bytes succeeds like any other and stores its byte, but it
brings the stack pointer back to the base, and the stack counts as empty with all 256 bytes in it.
-/

namespace LS8

/-! ## Actions -/

/-- Something to be done to a stack. -/
inductive StackAction
  | pushByte (v : UInt8)
  | pushRegister (reg : UInt8)
  | popInto (reg : UInt8)
  deriving DecidableEq, Repr

namespace StackAction

/-- The register exists, and the stack pointer is not popped into. -/
def Admissible : StackAction → Prop
  | pushByte _ => True
  | pushRegister reg => reg < 8
  | popInto reg => reg < 8 ∧ reg ≠ 7

/-- Whether the action is a push. -/
def isPush : StackAction → Bool
  | pushByte _ | pushRegister _ => true
  | popInto _ => false

/-- The action on a processor. -/
def perform : StackAction → Transition Processor Fault Unit
  | pushByte v => Processor.pushByte v
  | pushRegister reg => Processor.pushRegister reg
  | popInto reg => Processor.popInto reg

/-- A history of actions on a processor. -/
def performAll : List StackAction → Transition Processor Fault Unit
  | [] => return ()
  | a :: rest => do
    a.perform
    performAll rest

/-- The action on the list machine. -/
def carryOut (m : ListMachine) : StackAction → ListMachine
  | pushByte v => m.push v
  | pushRegister reg => m.push (m.pushValue reg)
  | popInto reg => m.pop reg

/-- The addresses that the pushes of a history write to. -/
def pushedTo (m : ListMachine) : List StackAction → List UInt8
  | [] => []
  | a :: rest => (if a.isPush then [m.pointer - 1] else []) ++ pushedTo (a.carryOut m) rest

theorem length_carryOut {a : StackAction} (h : a.isPush) (m : ListMachine) :
    (a.carryOut m).stack.length = m.stack.length + 1 := by
  cases a with
  | popInto reg => exact absurd h Bool.false_ne_true
  | _ => rfl

instance decidableAdmissible : (a : StackAction) → Decidable a.Admissible
  | pushByte _ => inferInstanceAs (Decidable True)
  | pushRegister reg => inferInstanceAs (Decidable (reg < 8))
  | popInto reg => inferInstanceAs (Decidable (reg < 8 ∧ reg ≠ 7))

end StackAction

namespace Processor

variable {p : Processor} {m : ListMachine}

/-! ## One action -/

/-- Only memory and registers differ, and the memory only at some addresses. -/
structure ChangesOnly (p q : Processor) (addresses : List UInt8) : Prop where
  cells : ∀ x, x ∉ addresses → q.memory.cell x = p.memory.cell x
  frame : q = { p with memory := q.memory, registers := q.registers }

theorem ChangesOnly.trans {q r : Processor} {first rest : List UInt8}
    (h : p.ChangesOnly q first) (h' : q.ChangesOnly r rest) : p.ChangesOnly r (first ++ rest) := by
  refine ⟨fun x hx => ?_, ?_⟩
  · obtain ⟨hfirst, hrest⟩ := not_or.mp (List.mem_append.not.mp hx)
    rw [h'.cells x hrest, h.cells x hfirst]
  · rw [h'.frame, h.frame]

theorem changesOnly_pushed (h : p.Represents m) (v : UInt8) :
    p.ChangesOnly (p.pushed v) [m.pointer - 1] := by
  refine ⟨fun x hx => ?_, rfl⟩
  have hne : x ≠ p.stackPointer - 1 := by
    rw [h.pointer]
    exact List.mem_singleton.not.mp hx
  exact Memory.cell_withCell_of_ne hne

/-- A pop delivers the newest byte of a stack that has one, and touches nothing else. -/
theorem Represents.popInto_apply {reg v : UInt8} {rest : List UInt8} (h : p.Represents m)
    (hstack : m.stack = v :: rest) (hdepth : m.stack.length ≤ 255) (hreg : reg < 8)
    (hne : reg ≠ 7) :
    popInto reg p = ⟨.ok (), p.popped reg, [.popped v p.stackPointer reg]⟩ ∧
      (p.popped reg).Represents (m.pop reg) ∧ (p.popped reg).value reg = v ∧
      ∀ other, other ≠ reg → other ≠ 7 → (p.popped reg).value other = p.value other := by
  obtain ⟨htop, hpopped⟩ := h.popped hstack (lt_seven_iff.mpr ⟨hreg, hne⟩)
  have hbase : p.stackPointer ≠ stackBase := h.stackPointer_ne (by simp [hstack]) hdepth
  refine ⟨?_, hpopped, ?_, fun other hother hseven => value_popped_of_ne hother hseven p⟩
  · rw [Processor.popInto_apply hbase hreg, htop]
  · rw [value_popped_self hreg hne, htop]

/-- A pop does nothing if the depth of the stack is a multiple of 256. -/
theorem Represents.popInto_skipped (h : p.Represents m)
    (hdepth : m.stack.length = 0 ∨ m.stack.length = 256) (reg : UInt8) :
    popInto reg p = ⟨.ok (), p, [.stackEmpty p.counter reg]⟩ := by
  apply popInto_apply_of_empty
  rw [h.pointer, ListMachine.pointer]
  rcases hdepth with hzero | hfull
  · rw [hzero, ListMachine.pointerAt_zero]
  · rw [hfull, ListMachine.pointerAt_256]

/-- What an action does to a stack of at most 255 bytes. -/
theorem Represents.perform {a : StackAction} (h : p.Represents m) (ha : a.Admissible)
    (hdepth : m.stack.length ≤ 255) :
    ∃ q log, a.perform p = ⟨.ok (), q, log⟩ ∧ q.Represents (a.carryOut m) ∧
      p.ChangesOnly q (StackAction.pushedTo m [a]) := by
  cases a with
  | pushByte v => exact ⟨_, _, pushByte_apply v p, h.pushed hdepth v, changesOnly_pushed h v⟩
  | pushRegister reg =>
    have hreg : reg < 8 := ha
    have hpushed := h.pushed hdepth (m.pushValue reg)
    have hchanges := changesOnly_pushed h (m.pushValue reg)
    rw [← h.pushValue_eq hreg] at hpushed hchanges
    refine ⟨_, _, pushRegister_apply hreg p, ?_, hchanges⟩
    rw [StackAction.carryOut, ← h.pushValue_eq hreg]
    exact hpushed
  | popInto reg =>
    obtain ⟨hreg, hne⟩ : reg < 8 ∧ reg ≠ 7 := ha
    rcases hstack : m.stack with _ | ⟨v, rest⟩
    · have hskip := h.popInto_skipped (.inl (by rw [hstack, List.length_nil])) reg
      have hpop : m.pop reg = m := by rw [ListMachine.pop, hstack]
      refine ⟨_, _, hskip, ?_, fun x _ => rfl, rfl⟩
      rw [StackAction.carryOut, hpop]
      exact h
    · obtain ⟨happly, hpopped, -⟩ := h.popInto_apply hstack hdepth hreg hne
      exact ⟨_, _, happly, hpopped, fun x _ => rfl, rfl⟩

/-! ## Histories -/

/-- What a history does to a stack that never has more than 255 bytes before an action. -/
theorem Represents.performAll (h : p.Represents m) (history : List StackAction)
    (hadmissible : ∀ a ∈ history, a.Admissible)
    (hdepth : ∀ part ∈ history.inits,
      (part.foldl StackAction.carryOut m).stack.length ≤ 255) :
    ∃ q log, StackAction.performAll history p = ⟨.ok (), q, log⟩ ∧
      q.Represents (history.foldl StackAction.carryOut m) ∧
      p.ChangesOnly q (StackAction.pushedTo m history) := by
  induction history generalizing p m with
  | nil => exact ⟨p, [], rfl, h, fun _ _ => rfl, rfl⟩
  | cons a rest ih =>
    have hstart : m.stack.length ≤ 255 := hdepth [] (by simp)
    obtain ⟨q, log, happly, hnext, hfirst⟩ :=
      h.perform (hadmissible a (List.mem_cons_self ..)) hstart
    have hrestdepth : ∀ part ∈ rest.inits,
        (part.foldl StackAction.carryOut (a.carryOut m)).stack.length ≤ 255 := by
      intro part hpart
      exact hdepth (a :: part) (by simpa using hpart)
    obtain ⟨r, log', happly', hlast, hothers⟩ :=
      ih hnext (fun b hb => hadmissible b (List.mem_cons_of_mem _ hb)) hrestdepth
    refine ⟨r, log ++ log', ?_, hlast, ?_⟩
    · rw [StackAction.performAll, Transition.bind_apply, happly]
      simp only [happly']
    · have hboth := hfirst.trans hothers
      rwa [StackAction.pushedTo, StackAction.pushedTo, List.append_nil] at hboth

/-- **The stack is a list of at most 255 bytes.**  After every admissible history that never has more
than 255 bytes on the stack, the processor represents the list machine after the same history, and it
differs from what it was at the cells pushed to and in its registers only.  The next pop delivers the
newest byte if there is one and does nothing if there is none.  A push onto 255 bytes, of whatever
value, leaves a stack pointer at its base, and the next pop does nothing. -/
theorem stack_last_in_first_out {p : Processor} (hbase : p.stackPointer = stackBase)
    (history : List StackAction) (hadmissible : ∀ a ∈ history, a.Admissible)
    (hdepth : ∀ part ∈ history.inits,
      (part.foldl StackAction.carryOut p.machine).stack.length ≤ 255) :
    let m := history.foldl StackAction.carryOut p.machine
    ∃ q log, StackAction.performAll history p = ⟨.ok (), q, log⟩ ∧ q.Represents m ∧
      p.ChangesOnly q (StackAction.pushedTo p.machine history) ∧
      (∀ v rest, m.stack = v :: rest → ∀ reg, reg < 8 → reg ≠ 7 →
        ∃ q' log', popInto reg q = ⟨.ok (), q', log'⟩ ∧ q'.value reg = v ∧
          q'.memory = q.memory ∧ ∀ other, other ≠ reg → other ≠ 7 →
            q'.value other = q.value other) ∧
      (m.stack = [] → ∀ reg, popInto reg q = ⟨.ok (), q, [.stackEmpty q.counter reg]⟩) ∧
      (m.stack.length = 255 → ∀ a : StackAction, a.isPush → a.Admissible →
        ∃ q' log', a.perform q = ⟨.ok (), q', log'⟩ ∧ q'.stackPointer = stackBase ∧
          ∀ reg, popInto reg q' = ⟨.ok (), q', [.stackEmpty q'.counter reg]⟩) := by
  intro m
  obtain ⟨q, log, happly, hrep, hchanges⟩ :=
    (represents_machine hbase).performAll history hadmissible hdepth
  have hlength : m.stack.length ≤ 255 := hdepth history (by simp)
  refine ⟨q, log, happly, hrep, hchanges, ?_, ?_, ?_⟩
  · intro v rest hstack reg hreg hne
    obtain ⟨hpop, -, hvalue, hothers⟩ := hrep.popInto_apply hstack hlength hreg hne
    exact ⟨_, _, hpop, hvalue, rfl, hothers⟩
  · intro hempty reg
    exact hrep.popInto_skipped (.inl (List.length_eq_zero_iff.mpr hempty)) reg
  · intro hfull a hpush ha
    obtain ⟨q', log', happly', hrep', -⟩ := hrep.perform ha hlength
    have hlength' : (a.carryOut m).stack.length = 256 := by
      rw [StackAction.length_carryOut hpush, hfull]
    refine ⟨q', log', happly', ?_, hrep'.popInto_skipped (.inr hlength')⟩
    rw [hrep'.pointer, ListMachine.pointer, hlength', ListMachine.pointerAt_256]

/-- Two pushes, one of them of the stack pointer, and three pops, the last of which finds nothing. -/
theorem stack_last_in_first_out_three_pops :
    let p := initial .unlimited
    let history : List StackAction :=
      [.pushByte 5, .pushRegister 7, .popInto 2, .popInto 0, .popInto 1]
    (p.stackPointer = stackBase ∧ (∀ a ∈ history, a.Admissible) ∧
      ∀ part ∈ history.inits,
        (part.foldl StackAction.carryOut p.machine).stack.length ≤ 255) ∧
    ∃ q log, StackAction.performAll history p = ⟨.ok (), q, log⟩ ∧ q.value 2 = 0xF2 ∧
      q.value 0 = 5 ∧ q.value 1 = 0 ∧ q.stackPointer = stackBase := by
  intro p history
  have hbase : p.stackPointer = stackBase := by decide +kernel
  have hadmissible : ∀ a ∈ history, a.Admissible := by decide
  have hdepth : ∀ part ∈ history.inits,
      (part.foldl StackAction.carryOut p.machine).stack.length ≤ 255 := by decide +kernel
  obtain ⟨q, log, happly, hrep, -⟩ := stack_last_in_first_out hbase history hadmissible hdepth
  refine ⟨⟨hbase, hadmissible, hdepth⟩, q, log, happly, ?_, ?_, ?_, ?_⟩
  · rw [hrep.general 2 (by decide)]
    decide +kernel
  · rw [hrep.general 0 (by decide)]
    decide +kernel
  · rw [hrep.general 1 (by decide)]
    decide +kernel
  · rw [hrep.pointer]
    decide +kernel

end Processor

end LS8
