import LS8.Proofs.Limit
import LS8.Proofs.Stores

/-!
# Programs that repeat themselves

A processor that comes back to a configuration goes round in a circle for ever.  Steps are determined by
memory, registers, flags and program counter, as long as the sink takes everything: neither the count of
steps nor what has been printed has a say in them.  So the steps behind the second visit are those behind
the first (`Alike.after`), the processor never stops, and from the first visit on its configurations are
those of one round over and over (`repeated_configuration_never_ends`).
-/

namespace LS8.Processor

variable {p q r : Processor} {i j n : Nat}

/-! ## Configurations -/

/-- Two processors agree in what a program can see of them: memory, registers, flags and program
counter. -/
structure SameConfiguration (p q : Processor) : Prop where
  memory : q.memory = p.memory
  registers : q.registers = p.registers
  flags : q.flags = p.flags
  counter : q.counter = p.counter

theorem SameConfiguration.trans (h : SameConfiguration p q) (h' : SameConfiguration q r) :
    SameConfiguration p r :=
  ⟨h'.memory.trans h.memory, h'.registers.trans h.registers, h'.flags.trans h.flags,
    h'.counter.trans h.counter⟩

theorem Alike.sameConfiguration (h : Alike p q) : SameConfiguration p q := by
  rw [h.same]
  exact ⟨rfl, rfl, rfl, rfl⟩

/-- Sinks that take everything have the same room left, whatever was printed to them. -/
theorem SameConfiguration.alike (h : SameConfiguration p q) (hstatus : q.status = p.status)
    (hp : p.sink.capacity = none) (hq : q.sink.capacity = none) : Alike p q := by
  obtain ⟨hmemory, hregisters, hflags, hcounter⟩ := h
  refine ⟨?_, hq.trans hp.symm, by rw [room, room, hp, hq]⟩
  cases q
  simp_all [withSurroundings]

/-! ## Rounds -/

/-- What follows on two visits is alike. -/
theorem alike_after_add (h : Alike (p.after i) (p.after j)) (n : Nat) :
    Alike (p.after (i + n)) (p.after (j + n)) := by
  rw [after_add, after_add]
  exact h.after n

/-- A processor that has come back is not going to stop. -/
theorem Lasts.forever_of_alike (h : p.Lasts j) (hij : i < j)
    (halike : Alike (p.after i) (p.after j)) (n : Nat) : p.Lasts n := by
  rcases forever_or_stopsAt p with hforever | ⟨k, hstop⟩
  · exact hforever n
  · -- It would stop no later than on its second visit, and until then it lasts.
    have hle : k + 1 ≤ j := hstop.le_of_alike halike hij
    exact absurd (h k hle) hstop.2

/-- A number of whole rounds leads back to the same configuration. -/
theorem sameConfiguration_after_rounds (h : Alike (p.after i) (p.after (i + j))) (m n : Nat) :
    SameConfiguration (p.after (i + n)) (p.after (i + (j * m + n))) := by
  induction m with
  | zero =>
    rw [Nat.mul_zero, Nat.zero_add]
    exact ⟨rfl, rfl, rfl, rfl⟩
  | succ m ih =>
    have hround := (alike_after_add h (j * m + n)).sameConfiguration
    have hsum : i + (j * (m + 1) + n) = i + j + (j * m + n) := by ring
    rw [hsum]
    exact ih.trans hround

/-- **A repeated configuration means that the program never ends.**  If the first `j` steps of a processor
succeed and leave it running, and after them it is in the configuration that it was in after `i` of them,
then no run with a limit ends before the limit, and the run without one does not end.  The configurations
from step `i` on repeat those of the steps from there to step `j`. -/
theorem repeated_configuration_never_ends (hsink : p.sink.capacity = none) (hij : i < j)
    (hlasts : p.Lasts j) (hsame : SameConfiguration (p.after i) (p.after j)) :
    (∀ limit, p.run (some limit) = some ⟨.error (.stepLimit limit),
      p.after (limit.toNat - p.steps.toNat), p.events (limit.toNat - p.steps.toNat)⟩) ∧
    p.run none = none ∧
    ∀ n, SameConfiguration (p.after (i + n % (j - i))) (p.after (i + n)) := by
  have hrun : p.status = .running := running_of_step (hlasts 0 (Nat.zero_lt_of_lt hij))
  have hcapacity (n : Nat) : (p.after n).sink.capacity = none := (p.sink_after n).1.trans hsink
  have hstatus (n : Nat) (hn : n ≤ j) : (p.after n).status = .running :=
    ((hlasts.mono hn).after hrun).1
  have halike : Alike (p.after i) (p.after j) :=
    hsame.alike ((hstatus j le_rfl).trans (hstatus i hij.le).symm) (hcapacity i) (hcapacity j)
  have hforever : ∀ n, p.Lasts n := hlasts.forever_of_alike hij halike
  refine ⟨fun limit => run_of_lasts hrun (hforever _), run_none_of_lasts hrun hforever, fun n => ?_⟩
  have hround : Alike (p.after i) (p.after (i + (j - i))) := by
    rwa [Nat.add_sub_cancel' hij.le]
  have hrounds := sameConfiguration_after_rounds hround (n / (j - i)) (n % (j - i))
  rwa [Nat.div_add_mod] at hrounds

/-- A program that prints in a circle of two instructions.  The second of its steps comes back. -/
theorem repeated_configuration_never_ends_printing :
    let p := loaded .unlimited [0x82, 0, 3, 0x47, 1, 0x54, 0]
    (p.sink.capacity = none ∧ 1 < 3 ∧ p.Lasts 3 ∧ SameConfiguration (p.after 1) (p.after 3)) ∧
    (p.after 1).sink.written = "" ∧ (p.after 3).sink.written = "0\n" ∧
    p.run (some 9) = some ⟨.error (.stepLimit 9), p.after 9, p.events 9⟩ ∧ p.run none = none ∧
    SameConfiguration (p.after 2) (p.after 1000) := by
  intro p
  have hlasts : p.Lasts 3 := by decide +kernel
  have hmemory : (p.after 3).memory = (p.after 1).memory := by
    -- Nothing is stored, so there is no need to compare the memories cell by cell.
    have hfirst : p.storedWithin 1 = [] := by decide +kernel
    have hall : p.storedWithin 3 = [] := by decide +kernel
    rw [memory_after, memory_after, hfirst, hall]
  have hregisters : (p.after 3).registers = (p.after 1).registers := by decide +kernel
  have hflags : (p.after 3).flags = (p.after 1).flags := by decide +kernel
  have hcounter : (p.after 3).counter = (p.after 1).counter := by decide +kernel
  have hprinted : (p.after 1).sink.written = "" ∧ (p.after 3).sink.written = "0\n" := by
    decide +kernel
  have hsink : p.sink.capacity = none := rfl
  have hsteps : p.steps = 0 := rfl
  have hsame : SameConfiguration (p.after 1) (p.after 3) :=
    ⟨hmemory, hregisters, hflags, hcounter⟩
  clear_value p
  obtain ⟨hlimited, hunlimited, hrounds⟩ :=
    repeated_configuration_never_ends hsink (by decide) hlasts hsame
  have hnine := hlimited 9
  rw [hsteps] at hnine
  exact ⟨⟨hsink, by decide, hlasts, hsame⟩, hprinted.1, hprinted.2, hnine, hunlimited, hrounds 999⟩

end LS8.Processor
