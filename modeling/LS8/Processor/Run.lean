import LS8.Processor.Step

/-!
# Runs

`advance n` takes up to `n` steps and stops early when the processor has halted or a step fails.
Both kinds of run are an `advance`:

* a run with a step limit, `runLimited`, may take as many steps as the limit leaves beyond those
  counted so far, and fails if the processor is still running then;
* a run without one, `runToHalt`, has an outcome only if the processor halts or fails at some time.

The log of a long stretch is collected in an array; `advance_succ` says that this cannot be seen.

A run without a limit is computed by looking no further than `horizon` steps ahead.  A running
processor whose next step succeeds is in one of `configurations` many states, as far as memory,
registers, flags and program counter go, and these determine every later step except for what a full
sink refuses.  So a stretch of more than `configurations` successful steps that prints nothing goes
round in a circle, and so does one that prints to a sink without a capacity.  A sink with room for
`n` characters takes fewer than `n + 1` lines, so among `n + 1` such stretches there is one that
prints nothing.
-/

namespace LS8.Processor

/-- Takes up to `n` steps and gives the status after them. -/
def advance (n : Nat) : Transition Processor Fault Status := fun p => go n p #[]
where
  /-- Takes up to `n` steps, with the log of the steps before them. -/
  go : Nat → Processor → Array Event → Outcome Processor Fault Status
    | 0, p, log => ⟨.ok p.status, p, log.toList⟩
    | n + 1, p, log =>
      match p.status with
      | .halted => ⟨.ok .halted, p, log.toList⟩
      | .running =>
        match step p with
        | ⟨.ok _, p', new⟩ => go n p' (log ++ new)
        | ⟨.error e, p', new⟩ => ⟨.error e, p', (log ++ new).toList⟩

theorem advance.go_eq (n : Nat) (p : Processor) (log : Array Event) :
    advance.go n p log =
      ⟨(advance n p).result, (advance n p).state, log.toList ++ (advance n p).log⟩ := by
  suffices h : ∀ (log log' : Array Event), advance.go n p (log ++ log') =
      ⟨(advance.go n p log').result, (advance.go n p log').state,
        log.toList ++ (advance.go n p log').log⟩ by
    simpa [advance] using h log #[]
  induction n generalizing p with
  | zero => intro log log'; simp [advance.go]
  | succ n ih =>
    intro log log'
    unfold advance.go
    cases p.status with
    | halted => simp
    | running =>
      rcases step p with ⟨r | r, p', new⟩
      · simp
      · have assoc : log ++ log' ++ new = log ++ (log' ++ new) := by
          apply Array.toList_inj.mp
          simp
        simpa [assoc] using ih p' log (log' ++ new)

@[simp] theorem advance_zero (p : Processor) : advance 0 p = ⟨.ok p.status, p, []⟩ := rfl

theorem advance_of_halted {p : Processor} (h : p.status = .halted) (n : Nat) :
    advance n p = ⟨.ok .halted, p, []⟩ := by
  cases n <;> simp [advance, advance.go, h]

/-- A stretch of steps is its first step and the stretch that follows. -/
theorem advance_succ {p : Processor} (h : p.status = .running) (n : Nat) :
    advance (n + 1) p = (step >>= fun _ => advance n) p := by
  show advance.go (n + 1) p #[] = _
  rw [Transition.bind_apply, advance.go, h]
  rcases step p with ⟨r | r, p', new⟩
  · simp
  · simp [advance.go_eq n p']

/-- Runs until the processor has halted, a step fails, or `limit` instructions have been carried out
in all. -/
def runLimited (limit : UInt64) : Transition Processor Fault Unit := do
  let p ← get
  match ← advance (limit.toNat - p.steps.toNat) with
  | .halted => return ()
  | .running => Transition.fail (.stepLimit limit)

/-- The number of ways to fill memory, registers, flags and a program counter that points into
memory. -/
def configurations : Nat := Nat.pow 256 256 * Nat.pow 256 8 * 4 * 256

/-- The number of characters that the sink still takes, if it has a capacity, and zero if not. -/
def room (p : Processor) : Nat :=
  match p.sink.capacity with
  | none => 0
  | some capacity => capacity - p.sink.written.length

/-- A number of steps after which a processor that is still running will run for ever. -/
def horizon (p : Processor) : Nat := (configurations + 1) * (p.room + 1)

/-- What a stretch of steps up to the horizon says about the run; `none` if the processor is still
running there. -/
def settle : Outcome Processor Fault Status → Option (Outcome Processor Fault Unit)
  | ⟨.ok .running, _, _⟩ => none
  | ⟨.ok .halted, p', log⟩ => some ⟨.ok (), p', log⟩
  | ⟨.error e, p', log⟩ => some ⟨.error e, p', log⟩

/-- Runs until the processor has halted or a step fails; `none` if that never happens. -/
def runToHalt (p : Processor) : Option (Outcome Processor Fault Unit) :=
  settle (advance p.horizon p)

/-- Runs with a step limit, or without one; `none` if the run never ends. -/
def run (limit : Option UInt64) (p : Processor) : Option (Outcome Processor Fault Unit) :=
  match limit with
  | some n => some (runLimited n p)
  | none => p.runToHalt

end LS8.Processor
