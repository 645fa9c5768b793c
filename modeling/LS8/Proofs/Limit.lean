import LS8.Processor.Action
import LS8.Proofs.Horizon

/-!
# Runs and their limits

A run is iterated steps.  `run_of_halted`, `run_of_stopsAt` and `run_of_lasts` say what it gives in the
three cases there are: the processor has halted before, it stops while the run is still allowed to go
on, or the limit comes first.  The first two hold of runs with a limit and of runs without, and for the
latter they rest on the horizon.

The limit is absolute.  It counts all steps that the processor has ever taken, so a run can be cut
short and taken up again, and nothing is lost or done twice (`run_of_run`).

There is a greatest limit, and it is no better than the others at standing for no limit at all: a run
without one goes on where the greatest cuts it short.  So limited runs say what the unlimited one does up
to there only (`run_some_of_run_none`, `run_none_of_run_some`).  A jump to its own address makes the
difference (`JumpsToItself`): it lasts for ever, and a run that is caught in it reaches any limit.
-/

namespace LS8.Processor

variable {p : Processor} {n k : Nat} {limit : UInt64}

/-- The result of a run whose last step has this result. -/
def ending (result : Except Fault Status) : Except Fault Unit := result.map fun _ => ()

theorem runLimited_of_advance {r : Except Fault Status} {s : Processor} {log : List Event}
    (h : advance (limit.toNat - p.steps.toNat) p = ⟨r, s, log⟩) (hr : r ≠ .ok .running) :
    runLimited limit p = ⟨ending r, s, log⟩ := by
  rcases r with e | _ | _
  · simp [runLimited, Transition.bind_apply, h, ending, Except.map]
  · exact absurd rfl hr
  · simp [runLimited, Transition.bind_apply, h, ending, Except.map]

theorem runLimited_of_advance_running {s : Processor} {log : List Event}
    (h : advance (limit.toNat - p.steps.toNat) p = ⟨.ok .running, s, log⟩) :
    runLimited limit p = ⟨.error (.stepLimit limit), s, log⟩ := by
  simp [runLimited, Transition.bind_apply, h]

/-! ## The three cases of a run -/

/-- A run of a halted processor does nothing, whatever its limit. -/
theorem run_of_halted (h : p.status = .halted) (limit : Option UInt64) :
    p.run limit = some ⟨.ok (), p, []⟩ := by
  cases limit with
  | none =>
    rw [run, runToHalt, advance_of_halted h]
    rfl
  | some limit =>
    have hrun := runLimited_of_advance (advance_of_halted h (limit.toNat - p.steps.toNat)) (by simp)
    rw [run, hrun]
    rfl

/-- A run ends with the step at which the processor stops, if the limit admits that step. -/
theorem run_of_stopsAt (hrun : p.status = .running) (h : p.StopsAt (k + 1)) {limit : Option UInt64}
    (hlimit : ∀ n ∈ limit, k + 1 ≤ n.toNat - p.steps.toNat) :
    p.run limit = some ⟨ending (step (p.after k)).result, p.after (k + 1), p.events (k + 1)⟩ := by
  have hstop := h.2
  cases limit with
  | none =>
    have hadvance := advance_of_stopsAt hrun h (h.le_horizon hrun)
    rw [run, runToHalt, hadvance]
    cases hresult : (step (p.after k)).result with
    | error e => rfl
    | ok status =>
      cases status with
      | running => exact absurd hresult hstop
      | halted => rfl
  | some n =>
    have hadvance := advance_of_stopsAt hrun h (hlimit n rfl)
    rw [run, runLimited_of_advance hadvance hstop]

/-- A run reaches its limit if the processor lasts for the steps that are left. -/
theorem run_of_lasts (hrun : p.status = .running) (h : p.Lasts (limit.toNat - p.steps.toNat)) :
    p.run (some limit) =
      some ⟨.error (.stepLimit limit), p.after (limit.toNat - p.steps.toNat),
        p.events (limit.toNat - p.steps.toNat)⟩ := by
  rw [run, runLimited_of_advance_running (advance_of_lasts hrun h)]

/-- A run whose limit is used up does not take a step. -/
theorem run_of_le_steps (hrun : p.status = .running) (h : limit ≤ p.steps) :
    p.run (some limit) = some ⟨.error (.stepLimit limit), p, []⟩ := by
  have hzero : limit.toNat - p.steps.toNat = 0 :=
    Nat.sub_eq_zero_of_le (UInt64.le_iff_toNat_le.mp h)
  have hlasts : p.Lasts (limit.toNat - p.steps.toNat) := by simp [hzero, Lasts]
  rw [run_of_lasts hrun hlasts, hzero]
  rfl

/-- A run without a limit has no outcome if the processor lasts for ever. -/
theorem run_none_of_lasts (hrun : p.status = .running) (h : ∀ n, p.Lasts n) :
    p.run none = none := by
  rw [run, runToHalt, advance_of_lasts hrun (h _)]
  rfl

/-- A run of a running processor that ends does so with the step at which the processor stops, or at its
limit. -/
theorem run_cases {limit : Option UInt64} {o : Outcome Processor Fault Unit}
    (hrun : p.status = .running) (h : p.run limit = some o) :
    (∃ k, p.StopsAt (k + 1) ∧ (∀ n ∈ limit, k + 1 ≤ n.toNat - p.steps.toNat) ∧
      o = ⟨ending (step (p.after k)).result, p.after (k + 1), p.events (k + 1)⟩) ∨
    ∃ n, limit = some n ∧ p.Lasts (n.toNat - p.steps.toNat) ∧
      o = ⟨.error (.stepLimit n), p.after (n.toNat - p.steps.toNat),
        p.events (n.toNat - p.steps.toNat)⟩ := by
  cases limit with
  | none =>
    rcases forever_or_stopsAt p with hforever | ⟨k, hstop⟩
    · rw [run_none_of_lasts hrun hforever] at h
      cases h
    · have hadmits : ∀ n ∈ (none : Option UInt64), k + 1 ≤ n.toNat - p.steps.toNat := by simp
      rw [run_of_stopsAt hrun hstop hadmits] at h
      exact .inl ⟨k, hstop, hadmits, (Option.some.inj h).symm⟩
  | some n =>
    rcases lasts_or_stopsAt p (n.toNat - p.steps.toNat) with hlasts | ⟨k, hk, hstop⟩
    · rw [run_of_lasts hrun hlasts] at h
      exact .inr ⟨n, rfl, hlasts, (Option.some.inj h).symm⟩
    · cases k with
      | zero => exact hstop.elim
      | succ k =>
        have hadmits : ∀ m ∈ some n, k + 1 ≤ m.toNat - p.steps.toNat := by simpa using hk
        rw [run_of_stopsAt hrun hstop hadmits] at h
        exact .inl ⟨k, hstop, hadmits, (Option.some.inj h).symm⟩

/-! ## Taking a run up again -/

/-- The same outcome with earlier events in front. -/
def precede {σ ε α : Type} (log : List Event) (o : Outcome σ ε α) : Outcome σ ε α :=
  ⟨o.result, o.state, log ++ o.log⟩

/-- A run that has some steps to go is these steps and the run from there on. -/
theorem run_of_lasts_le (hrun : p.status = .running) (h : p.Lasts n) {further : Option UInt64}
    (hfurther : ∀ m ∈ further, n ≤ m.toNat - p.steps.toNat) :
    p.run further = ((p.after n).run further).map (precede (p.events n)) := by
  have hrun' := (h.after hrun).1
  cases further with
  | none =>
    rcases forever_or_stopsAt (p.after n) with hforever | ⟨k, hstop⟩
    · have hlasts : ∀ m, p.Lasts m := fun m => (h.add (hforever m)).mono (Nat.le_add_left m n)
      rw [run_none_of_lasts hrun hlasts, run_none_of_lasts hrun' hforever]
      rfl
    · rw [run_of_stopsAt hrun (hstop.add h) (by simp), run_of_stopsAt hrun' hstop (by simp)]
      simp [precede, after_add, events_add, Nat.add_assoc]
  | some m =>
    have hle : n ≤ m.toNat - p.steps.toNat := hfurther m rfl
    have hfits : p.steps.toNat + n < UInt64.size := by
      have := m.toNat_lt_size
      have := p.steps.toNat_lt_size
      omega
    have hleft : m.toNat - p.steps.toNat = n + (m.toNat - (p.after n).steps.toNat) := by
      rw [h.toNat_steps hrun hfits]
      omega
    have hadvance := advance_add_of_lasts hrun h (m.toNat - (p.after n).steps.toNat)
    rw [← hleft] at hadvance
    rcases hafter : advance (m.toNat - (p.after n).steps.toNat) (p.after n) with ⟨r, s, log⟩
    rw [hafter] at hadvance
    by_cases hr : r = .ok .running
    · subst hr
      rw [run, run, runLimited_of_advance_running hadvance, runLimited_of_advance_running hafter]
      rfl
    · rw [run, run, runLimited_of_advance hadvance hr, runLimited_of_advance hafter hr]
      rfl

/-- A run that was cut short, or that has halted, can be taken up with a later limit or with none. -/
theorem run_of_run {o : Outcome Processor Fault Unit} {further : Option UInt64}
    (ho : p.run (some limit) = some o)
    (hresult : o.result = .ok () ∨ o.result = .error (.stepLimit limit))
    (hfurther : ∀ m ∈ further, limit ≤ m) :
    p.run further = (o.state.run further).map (precede o.log) := by
  cases hrun : p.status with
  | halted =>
    rw [run_of_halted hrun] at ho
    cases ho
    rw [run_of_halted hrun]
    rfl
  | running =>
    have hleft : ∀ m ∈ further, limit.toNat - p.steps.toNat ≤ m.toNat - p.steps.toNat := fun m hm =>
      Nat.sub_le_sub_right (UInt64.le_iff_toNat_le.mp (hfurther m hm)) _
    rcases lasts_or_stopsAt p (limit.toNat - p.steps.toNat) with hlasts | ⟨k, hk, hstop⟩
    · rw [run_of_lasts hrun hlasts] at ho
      cases ho
      exact run_of_lasts_le hrun hlasts fun m hm => hleft m hm
    · cases k with
      | zero => exact hstop.elim
      | succ k =>
        rw [run_of_stopsAt hrun hstop (by simpa using hk)] at ho
        cases ho
        cases hlast : (step (p.after k)).result with
        | error e =>
          simp only [hlast, ending, Except.map, reduceCtorEq, Except.error.injEq, false_or] at hresult
          exact absurd (hresult ▸ hlast) (step_ne_stepLimit _ _)
        | ok status =>
          have hhalted := (hstop.halted hrun hlast).2
          have hadmits : ∀ m ∈ further, k + 1 ≤ m.toNat - p.steps.toNat := fun m hm =>
            hk.trans (hleft m hm)
          rw [run_of_stopsAt hrun hstop hadmits, run_of_halted hhalted, hlast]
          simp [precede, ending, Except.map]

/-! ## Limited and unlimited runs -/

/-- The processor has halted, or it stops at one of the next `n` steps. -/
def EndsWithin (p : Processor) (n : Nat) : Prop := p.status = .halted ∨ ∃ k ≤ n, p.StopsAt k

/-- Only a limit makes a run report that it has reached its limit. -/
theorem run_none_ne_stepLimit {o : Outcome Processor Fault Unit} (h : p.run none = some o) :
    o.result ≠ .error (.stepLimit limit) := by
  cases hrun : p.status with
  | halted =>
    rw [run_of_halted hrun] at h
    cases h
    simp
  | running =>
    rcases run_cases hrun h with ⟨k, -, -, rfl⟩ | ⟨n, hnone, -⟩
    · have hstep := step_ne_stepLimit (p.after k) limit
      cases hresult : (step (p.after k)).result with
      | error e => simpa [ending, Except.map, hresult] using hstep
      | ok status => simp [ending, Except.map]
    · cases hnone

/-- The outcome of a run without a limit is that of every run with a limit high enough, if there is
one. -/
theorem run_some_of_run_none {o : Outcome Processor Fault Unit} (h : p.run none = some o)
    (hends : p.EndsWithin (greatestCount.toNat - p.steps.toNat)) :
    ∃ bound, ∀ n ≥ bound, p.run (some n) = some o := by
  cases hrun : p.status with
  | halted =>
    refine ⟨0, fun n _ => ?_⟩
    rw [run_of_halted hrun] at h ⊢
    exact h
  | running =>
    obtain ⟨k, hk, hstop⟩ := hends.resolve_left (by simp [hrun])
    cases k with
    | zero => exact hstop.elim
    | succ k =>
      have hfits : p.steps.toNat + (k + 1) < UInt64.size := by
        rw [← toNat_greatestCount]
        omega
      refine ⟨UInt64.ofNat (p.steps.toNat + (k + 1)), fun n hn => ?_⟩
      rw [ge_iff_le, UInt64.le_iff_toNat_le, UInt64.toNat_ofNat_of_lt' hfits] at hn
      rw [run_of_stopsAt hrun hstop (by simp)] at h
      rw [run_of_stopsAt hrun hstop (by simp; omega), h]

/-- A run without a limit ends wherever the runs with high limits agree, unless it is the greatest limit
alone that they agree on. -/
theorem run_none_of_run_some {r : Except Fault Unit} {q : Processor} {bound : UInt64}
    (hbound : bound < greatestCount ∨ ∀ limit, r ≠ .error (.stepLimit limit))
    (h : ∀ n ≥ bound, ∃ log, p.run (some n) = some ⟨r, q, log⟩) :
    p.EndsWithin (greatestCount.toNat - p.steps.toNat) ∧ ∃ log, p.run none = some ⟨r, q, log⟩ := by
  obtain ⟨log, hlog⟩ := h greatestCount (le_greatestCount bound)
  cases hrun : p.status with
  | halted =>
    rw [run_of_halted hrun] at hlog ⊢
    exact ⟨.inl hrun, log, hlog⟩
  | running =>
    rcases lasts_or_stopsAt p (greatestCount.toNat - p.steps.toNat) with hlasts | ⟨k, hk, hstop⟩
    · rw [run_of_lasts hrun hlasts] at hlog
      obtain ⟨rfl, -⟩ := (Outcome.mk.injEq ..).mp (Option.some.inj hlog)
      rcases hbound with hbound | hbound
      · -- Two limits are named by two different failures.
        obtain ⟨log', hlog'⟩ := h bound (UInt64.le_refl bound)
        have hless := UInt64.lt_iff_toNat_lt.mp hbound
        rw [run_of_lasts hrun (hlasts.mono (by omega))] at hlog'
        have hsame : bound = greatestCount := by
          simpa using congrArg Outcome.result (Option.some.inj hlog')
        exact absurd (hsame ▸ hless) (Nat.lt_irrefl _)
      · exact absurd rfl (hbound _)
    · cases k with
      | zero => exact hstop.elim
      | succ k =>
        rw [run_of_stopsAt hrun hstop (by simpa using hk)] at hlog
        rw [run_of_stopsAt hrun hstop (by simp)]
        exact ⟨.inr ⟨k + 1, hk, hstop⟩, log, hlog⟩

/-! ## A jump to itself -/

/-- The next instruction is a jump to its own address. -/
def JumpsToItself (p : Processor) : Prop :=
  ∃ reg < 8, p.Attempts (.jump reg) ∧ (p.value reg).toNat = p.counter

/-- Such a jump does nothing but count. -/
theorem JumpsToItself.step (h : p.JumpsToItself) :
    (step p).result = .ok .running ∧ (step p).state = { p with steps := p.steps + 1 } := by
  obtain ⟨reg, hreg, hjump, hself⟩ := h
  rw [step_of_running hjump.1]
  simp [hjump.2, execute_jump, hreg, follow, hself, hjump.1]

theorem JumpsToItself.after (h : p.JumpsToItself) (n : Nat) :
    p.Lasts n ∧ p.after n = { p with steps := p.steps + UInt64.ofNat n } := by
  induction n generalizing p with
  | zero => exact ⟨fun j hj => absurd hj (Nat.not_lt_zero j), by simp⟩
  | succ n ih =>
    obtain ⟨hresult, hstate⟩ := h.step
    have hagain : { p with steps := p.steps + 1 }.JumpsToItself := h
    obtain ⟨hlasts, hafter⟩ := ih hagain
    rw [lasts_succ_iff, after_succ, hstate, hafter]
    refine ⟨⟨hresult, hlasts⟩, ?_⟩
    rw [Nat.add_comm n 1, UInt64.ofNat_add, ← UInt64.add_assoc]
    rfl

/-- A run that is caught in it counts up to its limit. -/
theorem JumpsToItself.run (h : p.JumpsToItself) (hsteps : p.steps = 0) (limit : UInt64) :
    p.run (some limit) =
      some ⟨.error (.stepLimit limit), { p with steps := limit }, p.events limit.toNat⟩ := by
  obtain ⟨reg, -, hjump, -⟩ := id h
  have hleft : limit.toNat - p.steps.toNat = limit.toNat := by simp [hsteps]
  rw [run_of_lasts hjump.1 (h.after _).1, hleft, (h.after _).2]
  simp [hsteps]

/-! ## The main result -/

/-- **A run is iterated steps, up to an exact limit.**  It does nothing to a halted processor, and
nothing at all once the limit is used up.  Otherwise it ends with the first step that halts or fails,
if that is among the steps that the limit leaves, and after exactly these steps if it is not.  A run
without a limit that ends within the steps that the greatest limit leaves ends as the runs with high
limits do, and it does so wherever they agree; that the greatest limit alone is reached is no agreement.
A run that was cut short or has halted is taken up without loss. -/
theorem run_eq_iterated_steps (p : Processor) (limit : UInt64) :
    (p.run (some limit)).isSome ∧
    (p.status = .halted → p.run (some limit) = some ⟨.ok (), p, []⟩) ∧
    (p.status = .running → limit ≤ p.steps →
      p.run (some limit) = some ⟨.error (.stepLimit limit), p, []⟩) ∧
    (p.status = .running → p.steps < limit →
      (∀ k, p.StopsAt (k + 1) → k + 1 ≤ limit.toNat - p.steps.toNat →
        p.run (some limit) =
          some ⟨ending (step (p.after k)).result, p.after (k + 1), p.events (k + 1)⟩) ∧
      ((∀ k ≤ limit.toNat - p.steps.toNat, ¬ p.StopsAt k) →
        p.run (some limit) =
          some ⟨.error (.stepLimit limit), p.after (limit.toNat - p.steps.toNat),
            p.events (limit.toNat - p.steps.toNat)⟩ ∧
        (p.after (limit.toNat - p.steps.toNat)).status = .running ∧
        (p.after (limit.toNat - p.steps.toNat)).steps = limit)) ∧
    (∀ o, p.run none = some o → p.EndsWithin (greatestCount.toNat - p.steps.toNat) →
      (∀ l, o.result ≠ .error (.stepLimit l)) ∧ ∃ bound, ∀ n ≥ bound, p.run (some n) = some o) ∧
    (∀ r q bound, (bound < greatestCount ∨ ∀ l, r ≠ .error (.stepLimit l)) →
      (∀ n ≥ bound, ∃ log, p.run (some n) = some ⟨r, q, log⟩) →
      p.EndsWithin (greatestCount.toNat - p.steps.toNat) ∧ ∃ log, p.run none = some ⟨r, q, log⟩) ∧
    ∀ o further, p.run (some limit) = some o →
      (o.result = .ok () ∨ o.result = .error (.stepLimit limit)) →
      (∀ m ∈ further, limit ≤ m) →
      p.run further = (o.state.run further).map (precede o.log) := by
  refine ⟨rfl, fun h => run_of_halted h _, run_of_le_steps, fun hrun hlt => ⟨?_, ?_⟩,
    fun o ho hends => ⟨fun _ => run_none_ne_stepLimit ho, run_some_of_run_none ho hends⟩,
    fun _ _ _ => run_none_of_run_some, fun _ _ => run_of_run⟩
  · intro k hstop hk
    exact run_of_stopsAt hrun hstop (by simpa using hk)
  · intro hnever
    have hlasts : p.Lasts (limit.toNat - p.steps.toNat) := by
      refine (lasts_or_stopsAt p _).resolve_right ?_
      rintro ⟨k, hk, hstop⟩
      exact hnever k hk hstop
    have hlt' : p.steps.toNat < limit.toNat := UInt64.lt_iff_toNat_lt.mp hlt
    have hsum : p.steps.toNat + (limit.toNat - p.steps.toNat) = limit.toNat := by omega
    refine ⟨run_of_lasts hrun hlasts, (hlasts.after hrun).1, UInt64.toNat_inj.mp ?_⟩
    rw [hlasts.toNat_steps hrun (hsum.trans_lt limit.toNat_lt_size), hsum]

/-- A halt that is the last step allowed, and the same run cut short one step before it. -/
theorem run_nop_halt :
    let p := loaded .unlimited [0x00, 0x01]
    (p.StopsAt 2 ∧ p.run (some 2) = some ⟨.ok (), p.after 2, p.events 2⟩) ∧
    ((p.after 2).status = .halted ∧ (p.after 2).run (some 0) = some ⟨.ok (), p.after 2, []⟩) ∧
    (¬ p.StopsAt 1 ∧ p.run (some 1) = some ⟨.error (.stepLimit 1), p.after 1, p.events 1⟩) ∧
    (1 ≤ (p.after 1).steps ∧
      (p.after 1).run (some 1) = some ⟨.error (.stepLimit 1), p.after 1, []⟩) ∧
    (p.EndsWithin (greatestCount.toNat - p.steps.toNat) ∧
      p.run none = some ⟨.ok (), p.after 2, p.events 2⟩ ∧
      ∃ bound, ∀ n ≥ bound, p.run (some n) = some ⟨.ok (), p.after 2, p.events 2⟩) ∧
    p.run (some 2) = ((p.after 1).run (some 2)).map (precede (p.events 1)) := by
  intro p
  obtain ⟨-, -, -, hrun, hunlimited, hagree, -⟩ := run_eq_iterated_steps p 2
  obtain ⟨-, -, -, hcut, -, -, hresume⟩ := run_eq_iterated_steps p 1
  have hrunning : p.status = .running := rfl
  have hsteps : p.steps = 0 := rfl
  have hstop : p.StopsAt 2 := by decide +kernel
  have hnever : ∀ k ≤ (1 : UInt64).toNat - p.steps.toNat, ¬ p.StopsAt k := by decide +kernel
  have hshort : p.run (some 1) = some ⟨.error (.stepLimit 1), p.after 1, p.events 1⟩ :=
    ((hcut hrunning (by decide +kernel)).2 hnever).1
  have hend : ending (step (p.after 1)).result = .ok () := by decide +kernel
  have hall : ∀ n ≥ (2 : UInt64), ∃ log, p.run (some n) = some ⟨.ok (), p.after 2, log⟩ := by
    intro n hn
    rw [ge_iff_le, UInt64.le_iff_toNat_le] at hn
    rw [run_of_stopsAt hrunning hstop (by simpa [hsteps] using hn), hend]
    exact ⟨_, rfl⟩
  obtain ⟨hends, log, hnone⟩ := hagree _ _ 2 (.inr (by simp)) hall
  have hnone' : p.run none = some ⟨.ok (), p.after 2, p.events 2⟩ := by
    rw [run_of_stopsAt hrunning hstop (by simp), hend]
  refine ⟨⟨hstop, ?_⟩, ⟨by decide +kernel, ?_⟩, ⟨by decide +kernel, hshort⟩,
    ⟨by decide +kernel, ?_⟩, ⟨hends, hnone', (hunlimited _ hnone' hends).2⟩, ?_⟩
  · rw [← hend]
    exact (hrun hrunning (by decide +kernel)).1 1 hstop (by decide +kernel)
  · exact (run_eq_iterated_steps (p.after 2) 0).2.1 (by decide +kernel)
  · exact (run_eq_iterated_steps (p.after 1) 1).2.2.1 (by decide +kernel) (by decide +kernel)
  · have hlater : ∀ m ∈ some 2, (1 : UInt64) ≤ m := by simp
    simpa only using hresume _ (some 2) hshort (.inr rfl) hlater

/-- The greatest limit is not like no limit.  A jump to its own address reaches it, and there is no higher
one that would be reached as well; but the run without a limit has no end.  And behind the greatest limit
no run with a limit finds out that the next instruction is a halt. -/
theorem runs_disagree_at_greatest_limit :
    let p := loaded .unlimited [0x54, 0]
    let q : Processor := { p with steps := greatestCount }
    let r := (load [0x01] q).state
    (initial .unlimited).Reaches [.load [0x54, 0]] p ∧
    (initial .unlimited).Reaches [.load [0x54, 0], .run (some greatestCount), .load [0x01]] r ∧
    (¬ ∀ result s, (∃ log, p.run none = some ⟨result, s, log⟩) ↔
      ∃ bound, ∀ n ≥ bound, ∃ log, p.run (some n) = some ⟨result, s, log⟩) ∧
    ¬ ∀ result s, (∃ log, r.run none = some ⟨result, s, log⟩) ↔
      ∃ bound, ∀ n ≥ bound, ∃ log, r.run (some n) = some ⟨result, s, log⟩ := by
  intro p q r
  have hloop : p.JumpsToItself := ⟨0, by decide, by decide +kernel, by decide +kernel⟩
  have hlimited : p.run (some greatestCount) =
      some ⟨.error (.stepLimit greatestCount), q, p.events greatestCount.toNat⟩ :=
    hloop.run rfl greatestCount
  have hstart : (initial .unlimited).Reaches [.load [0x54, 0]] p := by
    have hload := (Reaches.nil (p := initial .unlimited)).load [0x54, 0]
    rwa [load_initial (by decide)] at hload
  have hrun : p.status = .running := rfl
  have hrun' : r.status = .running := rfl
  have hsteps : r.steps = greatestCount := rfl
  have hr : r = (load [0x01] q).state := rfl
  have hhalt : (step r).result = .ok .halted := by decide +kernel
  have hstop : r.StopsAt 1 := ⟨fun j hj => absurd hj (Nat.not_lt_zero j), by simp [hhalt]⟩
  clear_value r q p
  refine ⟨hstart, hr ▸ (hstart.run hlimited).load [0x01], fun h => ?_, fun h => ?_⟩
  · have hall : ∀ n ≥ greatestCount, ∃ log,
        p.run (some n) = some ⟨.error (.stepLimit greatestCount), q, log⟩ := by
      intro n hn
      rw [UInt64.le_antisymm (le_greatestCount n) hn]
      exact ⟨_, hlimited⟩
    obtain ⟨log, hlog⟩ := (h _ _).mpr ⟨greatestCount, hall⟩
    rw [run_none_of_lasts hrun fun n => (hloop.after n).1] at hlog
    cases hlog
  · have hnone : r.run none = some ⟨.ok (), r.after 1, r.events 1⟩ := by
      rw [run_of_stopsAt hrun' hstop (by simp), after_zero, hhalt]
      rfl
    obtain ⟨bound, hall⟩ := (h _ _).mp ⟨_, hnone⟩
    obtain ⟨log, hlog⟩ := hall bound (UInt64.le_refl _)
    rw [run_of_le_steps hrun' (hsteps ▸ le_greatestCount bound)] at hlog
    cases hlog

end LS8.Processor
