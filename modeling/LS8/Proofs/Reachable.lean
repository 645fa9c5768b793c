import LS8.Processor.Action
import LS8.Proofs.Failure
import LS8.Proofs.Limit
import LS8.Proofs.Upcoming

/-!
# What histories keep

A history is made of loads, steps, runs and changes of the tracing switch.  A run is a number of steps
(`after_of_run`), so what is kept by steps, loads and the switch is kept by every history
(`Reaches.keeps`), and what holds of new processors as well holds of all reachable ones
(`Reachable.keeps`).

The first such fact is that the program counter is never more than one past the end of memory
(`Reachable.counter_le`).  It may get there, because a step moves it over an instruction that ends at
the last address, but from there no step succeeds.
-/

namespace LS8.Processor

variable {p q : Processor}

/-- A run ends in the state that some number of steps lead to, and reports what they do. -/
theorem after_of_run {limit : Option UInt64} {o : Outcome Processor Fault Unit}
    (h : p.run limit = some o) : ∃ n, o.state = p.after n ∧ o.log = p.events n := by
  cases hrun : p.status with
  | halted =>
    rw [run_of_halted hrun] at h
    cases h
    exact ⟨0, rfl, rfl⟩
  | running =>
    rcases run_cases hrun h with ⟨k, -, -, rfl⟩ | ⟨n, -, -, rfl⟩
    · exact ⟨k + 1, rfl, rfl⟩
    · exact ⟨n.toNat - p.steps.toNat, rfl, rfl⟩

/-! ## Invariants -/

section
variable (Keeps : Processor → Prop)
  (hload : ∀ p program, Keeps p → Keeps (Processor.load program p).state)
  (hstep : ∀ p, Keeps p → Keeps (Processor.step p).state)
  (htracing : ∀ p on, Keeps p → Keeps { p with tracing := on })

include hstep in
/-- What one step keeps, any number of steps keep. -/
theorem after_keeps (h : Keeps p) (n : Nat) : Keeps (p.after n) := by
  induction n with
  | zero => exact h
  | succ n ih =>
    rw [after_succ']
    exact hstep _ ih

include hload hstep htracing

theorem perform_keeps {a : Action} {o : Outcome Processor ActionError (Option Status)}
    (h : p.perform a = some o) (hp : Keeps p) : Keeps o.state := by
  cases a with
  | load program =>
    cases h
    exact hload p program hp
  | step =>
    cases h
    exact hstep p hp
  | run limit =>
    obtain ⟨o', ho', rfl⟩ := Option.map_eq_some_iff.mp h
    obtain ⟨n, hstate, -⟩ := after_of_run ho'
    show Keeps o'.state
    rw [hstate]
    exact after_keeps Keeps hstep hp n
  | setTracing on =>
    cases h
    exact htracing p on hp

/-- What steps, loads and the tracing switch keep, every history keeps. -/
theorem Reaches.keeps {history : List Action} (h : p.Reaches history q) (hp : Keeps p) :
    Keeps q := by
  induction h with
  | nil => exact hp
  | snoc _ hlast ih => exact perform_keeps Keeps hload hstep htracing hlast ih

/-- What also holds of a new processor, holds of every reachable one. -/
theorem Reachable.keeps (h : p.Reachable) (hinitial : ∀ sink, Keeps (initial sink)) : Keeps p := by
  obtain ⟨sink, history, hreaches⟩ := h
  exact hreaches.keeps Keeps hload hstep htracing (hinitial sink)

end

/-! ## Ways of being reachable -/

theorem Reachable.after (h : p.Reachable) (n : Nat) : (p.after n).Reachable := by
  induction n with
  | zero => exact h
  | succ n ih =>
    obtain ⟨sink, history, hreaches⟩ := ih
    rw [after_succ']
    exact ⟨sink, history ++ [.step], hreaches.step⟩

/-- A new processor with a program that fits is reachable. -/
theorem reachable_loaded {program : List UInt8} (h : program.length ≤ 256) (sink : Sink) :
    (loaded sink program).Reachable := by
  have hload : (initial sink).Reaches [.load program] (load program (initial sink)).state :=
    Reaches.nil.load program
  rw [load_initial h] at hload
  exact ⟨sink, [.load program], hload⟩

/-! ## The program counter -/

theorem counter_follow_le {i : Instruction} {k : Continuation} (h : p.counter + i.length ≤ 256) :
    (p.follow i k).counter ≤ 256 := by
  cases k with
  | next => exact h
  | jump address => exact address.toNat_lt.le
  | halt => exact (Nat.le_add_right _ _).trans h

/-- A step moves the program counter to a byte in memory or over the bytes that it has decoded. -/
theorem counter_step_le (h : p.counter ≤ 256) : (step p).state.counter ≤ 256 := by
  cases hrun : p.status with
  | halted =>
    rw [step_of_halted hrun]
    exact h
  | running =>
    rcases step_cases hrun with ⟨d, -, hstep⟩ |
      ⟨i, hi, ⟨k, q, log, heffect, hstep⟩ | ⟨e, q, log, hfail, hstep⟩⟩
    · rw [hstep]
      exact h
    · rw [hstep]
      exact counter_follow_le (heffect.frame.1 ▸ Decoding.length_le_of_instruction hi.2)
    · rw [hstep]
      exact hfail.frame.1.trans_le h

/-- The program counter of a reachable processor is at most one past the end of memory. -/
theorem Reachable.counter_le (h : p.Reachable) : p.counter ≤ 256 := by
  refine h.keeps (fun q => q.counter ≤ 256) ?_ ?_ ?_ ?_
  · intro q program hq
    exact hq
  · intro q hq
    exact counter_step_le hq
  · intro q on hq
    exact hq
  · intro sink
    exact Nat.zero_le 256

end LS8.Processor
