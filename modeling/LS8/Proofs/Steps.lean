import LS8.Processor.Run
import LS8.Proofs.Execution

/-!
# Steps taken one by one

`p.after n` is the processor after `n` steps, each taken from the state that the one before has left,
whether it succeeded or not.  Of interest are the steps up to the first that does not leave the
processor running: `p.Lasts n` says that there is none among the first `n`, and `p.StopsAt k` that
step number `k`, counted from one, is that step.

`advance` is these steps, cut off at the first that halts or fails (`advance_of_lasts`,
`advance_of_stopsAt`).

The processor counts the steps that succeed, and the count is their number as long as it does not go
beyond `greatestCount` (`Lasts.toNat_steps`).
-/

namespace LS8.Processor

variable {p : Processor} {n k : Nat}

/-! ## The outcome of one step -/

/-- A step that succeeds is counted, and gives the status that it leaves behind. -/
theorem step_counts {status : Status} (hrun : p.status = .running)
    (h : (step p).result = .ok status) :
    (step p).state.status = status ∧ (step p).state.steps = p.steps + 1 := by
  rw [step_of_running hrun] at h ⊢
  cases hd : (Decoding.instruction p.memory.read p.counter).result with
  | error e => simp [hd] at h
  | ok i =>
    rcases hx : execute i p with ⟨e | c, p', log⟩
    · simp [hd, hx] at h
    · simp only [hd, hx, Except.ok.injEq] at h ⊢
      obtain ⟨-, -, hsteps, -⟩ := (Effect.of_execute hx).frame
      refine ⟨h, ?_⟩
      rw [← hsteps]
      simp

/-- Only a step of a running processor leaves it running. -/
theorem running_of_step (h : (step p).result = .ok .running) : p.status = .running := by
  cases hrun : p.status with
  | halted =>
    rw [step_of_halted hrun] at h
    cases h
  | running => rfl

/-- The step limit is a matter of runs; no instruction fails with it. -/
theorem execute_ne_stepLimit (i : Instruction) (p : Processor) (limit : UInt64) :
    (execute i p).result ≠ .error (.stepLimit limit) := by
  cases i with
  | nop | halt => simp
  | loadImmediate reg v =>
    rw [execute_loadImmediate]
    split_ifs <;> simp [noRegister]
  | print reg =>
    rw [execute_print]
    split_ifs <;> simp [noRegister]
  | alu op reg other =>
    by_cases hreg : reg < 8
    · by_cases hother : ∀ second ∈ other, second < 8
      · simp [execute_alu hreg hother]
      · push Not at hother
        obtain ⟨second, rfl, hsecond⟩ := hother
        simp [execute_alu_of_second_not hreg hsecond, noRegister]
    · simp [execute_alu_of_not hreg, noRegister]
  | push reg =>
    rw [execute_push]
    split_ifs <;> simp [noRegister]
  | pop reg =>
    rw [execute_pop]
    split_ifs <;> simp [noRegister]
  | call reg =>
    rw [execute_call]
    split_ifs <;> simp [noRegister]
  | ret reg =>
    rw [execute_ret]
    split_ifs <;> simp [noRegister]
  | jump reg =>
    rw [execute_jump]
    split_ifs <;> simp [noRegister]
  | jumpIfEqual reg =>
    rw [execute_jumpIfEqual, execute_jump]
    split_ifs <;> simp [noRegister]
  | jumpIfNotEqual reg =>
    rw [execute_jumpIfNotEqual, execute_jump]
    split_ifs <;> simp [noRegister]

theorem step_ne_stepLimit (p : Processor) (limit : UInt64) :
    (step p).result ≠ .error (.stepLimit limit) := by
  cases hrun : p.status with
  | halted => simp [step_of_halted hrun]
  | running =>
    rw [step_of_running hrun]
    cases (Decoding.instruction p.memory.read p.counter).result with
    | error e => simp
    | ok i =>
      have hx := execute_ne_stepLimit i p limit
      rcases hout : execute i p with ⟨e | c, p', log⟩
      · simpa [hout] using hx
      · simp [hout]

/-! ## The greatest count -/

/-- The greatest count, and the greatest limit that a run can have. -/
def greatestCount : UInt64 := UInt64.ofNat (UInt64.size - 1)

theorem toNat_greatestCount : greatestCount.toNat + 1 = UInt64.size := by decide

theorem le_greatestCount (count : UInt64) : count ≤ greatestCount := by
  rw [UInt64.le_iff_toNat_le, ← Nat.lt_add_one_iff, toNat_greatestCount]
  exact count.toNat_lt_size

/-- Behind the greatest count comes zero. -/
theorem greatestCount_add_one : greatestCount + 1 = 0 := by decide

/-- Below the greatest count there is room for one more. -/
theorem toNat_add_one_lt_size {count : UInt64} (h : count < greatestCount) :
    count.toNat + 1 < UInt64.size := by
  rw [← toNat_greatestCount]
  exact Nat.succ_lt_succ (UInt64.lt_iff_toNat_lt.mp h)

/-! ## Many steps -/

/-- The processor after `n` steps, the failed ones among them counted. -/
def after (p : Processor) (n : Nat) : Processor := (fun q => (step q).state)^[n] p

/-- The first `n` steps succeed and leave the processor running. -/
def Lasts (p : Processor) (n : Nat) : Prop := ∀ j < n, (step (p.after j)).result = .ok .running

/-- Step number `k`, counted from one, is the first that halts the processor or fails. -/
def StopsAt (p : Processor) : Nat → Prop
  | 0 => False
  | k + 1 => p.Lasts k ∧ (step (p.after k)).result ≠ .ok .running

/-- What the first `n` steps report. -/
def events (p : Processor) (n : Nat) : List Event :=
  (List.range n).flatMap fun j => (step (p.after j)).log

instance decidableLasts (p : Processor) (n : Nat) : Decidable (p.Lasts n) :=
  inferInstanceAs (Decidable (∀ j < n, (step (p.after j)).result = .ok .running))

instance decidableStopsAt (p : Processor) : (k : Nat) → Decidable (p.StopsAt k)
  | 0 => inferInstanceAs (Decidable False)
  | k + 1 =>
    inferInstanceAs (Decidable (p.Lasts k ∧ (step (p.after k)).result ≠ .ok .running))

@[simp] theorem after_zero (p : Processor) : p.after 0 = p := rfl

theorem after_succ (p : Processor) (n : Nat) : p.after (n + 1) = (step p).state.after n := rfl

theorem after_succ' (p : Processor) (n : Nat) : p.after (n + 1) = (step (p.after n)).state :=
  Function.iterate_succ_apply' _ n p

theorem after_add (p : Processor) (m n : Nat) : p.after (m + n) = (p.after m).after n := by
  rw [after, Nat.add_comm, Function.iterate_add_apply]
  rfl

@[simp] theorem events_zero (p : Processor) : p.events 0 = [] := rfl

theorem events_succ (p : Processor) (n : Nat) :
    p.events (n + 1) = (step p).log ++ (step p).state.events n := by
  simp [events, List.range_succ_eq_map, List.flatMap_map, after_succ]

theorem events_succ' (p : Processor) (n : Nat) :
    p.events (n + 1) = p.events n ++ (step (p.after n)).log := by
  simp [events, List.range_succ]

theorem lasts_succ_iff :
    p.Lasts (n + 1) ↔ (step p).result = .ok .running ∧ (step p).state.Lasts n := by
  constructor
  · intro h
    exact ⟨h 0 (Nat.succ_pos n), fun j hj => h (j + 1) (Nat.succ_lt_succ hj)⟩
  · rintro ⟨hfirst, hrest⟩ j hj
    cases j with
    | zero => exact hfirst
    | succ j => exact hrest j (Nat.lt_of_succ_lt_succ hj)

theorem events_add (p : Processor) (m n : Nat) :
    p.events (m + n) = p.events m ++ (p.after m).events n := by
  induction n with
  | zero => simp
  | succ n ih => rw [← Nat.add_assoc, events_succ', ih, events_succ', after_add, List.append_assoc]

theorem Lasts.add {m : Nat} (h : p.Lasts m) (h' : (p.after m).Lasts n) : p.Lasts (m + n) := by
  intro j hj
  by_cases hjm : j < m
  · exact h j hjm
  · obtain ⟨i, rfl⟩ := Nat.exists_eq_add_of_le (Nat.le_of_not_lt hjm)
    rw [after_add]
    exact h' i (by omega)

theorem StopsAt.add {m : Nat} (h : p.Lasts m) (h' : (p.after m).StopsAt (k + 1)) :
    p.StopsAt (m + k + 1) := by
  refine ⟨h.add h'.1, ?_⟩
  rw [after_add]
  exact h'.2

theorem Lasts.mono {m : Nat} (h : p.Lasts n) (hm : m ≤ n) : p.Lasts m :=
  fun j hj => h j (lt_of_lt_of_le hj hm)

/-- A processor does not last for the step at which it stops. -/
theorem StopsAt.lt (h : p.StopsAt k) (h' : p.Lasts n) : n < k := by
  cases k with
  | zero => exact h.elim
  | succ k =>
    by_contra hle
    exact h.2 (h' k (by omega))

theorem StopsAt.unique {m : Nat} (h : p.StopsAt k) (h' : p.StopsAt m) : m = k := by
  cases k with
  | zero => exact h.elim
  | succ k =>
    cases m with
    | zero => exact h'.elim
    | succ m =>
      have hle := h.lt h'.1
      have hge := h'.lt h.1
      omega

/-- While it lasts, the processor is running and counts every step. -/
theorem Lasts.after (hrun : p.status = .running) (h : p.Lasts n) :
    (p.after n).status = .running ∧ (p.after n).steps = p.steps + UInt64.ofNat n := by
  induction n generalizing p with
  | zero => exact ⟨hrun, (UInt64.add_zero _).symm⟩
  | succ n ih =>
    obtain ⟨hfirst, hrest⟩ := lasts_succ_iff.mp h
    obtain ⟨hstatus, hsteps⟩ := step_counts hrun hfirst
    obtain ⟨hstatus', hsteps'⟩ := ih hstatus hrest
    refine ⟨hstatus', ?_⟩
    rw [after_succ, hsteps', hsteps, Nat.add_comm n 1, UInt64.ofNat_add, UInt64.add_assoc]
    rfl

/-- The count is the number of steps as long as it does not start again. -/
theorem Lasts.toNat_steps (hrun : p.status = .running) (h : p.Lasts n)
    (hfits : p.steps.toNat + n < UInt64.size) : (p.after n).steps.toNat = p.steps.toNat + n := by
  rw [(h.after hrun).2, UInt64.toNat_add, UInt64.toNat_ofNat_of_lt' (by omega)]
  exact Nat.mod_eq_of_lt hfits

/-- If the step at which the processor stops succeeds, it was a halt. -/
theorem StopsAt.halted {status : Status} (hrun : p.status = .running) (h : p.StopsAt (k + 1))
    (hok : (step (p.after k)).result = .ok status) :
    status = .halted ∧ (p.after (k + 1)).status = .halted := by
  have hstatus := (step_counts (h.1.after hrun).1 hok).1
  cases status with
  | running => exact absurd hok h.2
  | halted => exact ⟨rfl, by rw [after_succ', hstatus]⟩

/-- A processor lasts for `n` steps or stops at one of them. -/
theorem lasts_or_stopsAt (p : Processor) (n : Nat) : p.Lasts n ∨ ∃ k ≤ n, p.StopsAt k := by
  induction n with
  | zero => exact .inl fun j hj => absurd hj (Nat.not_lt_zero j)
  | succ n ih =>
    rcases ih with hlasts | ⟨k, hk, hstop⟩
    · by_cases hstep : (step (p.after n)).result = .ok .running
      · left
        intro j hj
        rcases Nat.lt_succ_iff_lt_or_eq.mp hj with hlt | rfl
        · exact hlasts j hlt
        · exact hstep
      · exact .inr ⟨n + 1, le_refl _, hlasts, hstep⟩
    · exact .inr ⟨k, Nat.le_succ_of_le hk, hstop⟩

theorem forever_or_stopsAt (p : Processor) : (∀ n, p.Lasts n) ∨ ∃ k, p.StopsAt (k + 1) := by
  by_cases hforever : ∀ n, p.Lasts n
  · exact .inl hforever
  · push Not at hforever
    obtain ⟨n, hn⟩ := hforever
    obtain ⟨k, -, hstop⟩ := (lasts_or_stopsAt p n).resolve_left hn
    cases k with
    | zero => exact hstop.elim
    | succ k => exact .inr ⟨k, hstop⟩

/-! ## Advancing -/

theorem advance_succ_of_ok {status : Status} (hrun : p.status = .running)
    (h : (step p).result = .ok status) (n : Nat) :
    advance (n + 1) p =
      ⟨(advance n (step p).state).result, (advance n (step p).state).state,
        (step p).log ++ (advance n (step p).state).log⟩ := by
  rw [advance_succ hrun, Transition.bind_apply]
  rcases hstep : step p with ⟨r, p', log⟩
  obtain rfl : r = .ok status := by simpa [hstep] using h
  rfl

theorem advance_succ_of_error {e : Fault} (hrun : p.status = .running)
    (h : (step p).result = .error e) (n : Nat) :
    advance (n + 1) p = ⟨.error e, (step p).state, (step p).log⟩ := by
  rw [advance_succ hrun, Transition.bind_apply]
  rcases hstep : step p with ⟨r, p', log⟩
  obtain rfl : r = .error e := by simpa [hstep] using h
  rfl

/-- As long as the processor lasts, advancing is taking steps. -/
theorem advance_add_of_lasts (hrun : p.status = .running) (h : p.Lasts n) (m : Nat) :
    advance (n + m) p =
      ⟨(advance m (p.after n)).result, (advance m (p.after n)).state,
        p.events n ++ (advance m (p.after n)).log⟩ := by
  induction n generalizing p with
  | zero => simp
  | succ n ih =>
    obtain ⟨hfirst, hrest⟩ := lasts_succ_iff.mp h
    obtain ⟨hstatus, -⟩ := step_counts hrun hfirst
    rw [Nat.add_right_comm, advance_succ_of_ok hrun hfirst, ih hstatus hrest, events_succ,
      after_succ, List.append_assoc]

theorem advance_of_lasts (hrun : p.status = .running) (h : p.Lasts n) :
    advance n p = ⟨.ok .running, p.after n, p.events n⟩ := by
  have hadvance := advance_add_of_lasts hrun h 0
  rw [Nat.add_zero, advance_zero] at hadvance
  rw [hadvance, (h.after hrun).1]
  simp

/-- Advancing goes no further than the step at which the processor stops. -/
theorem advance_of_stopsAt (hrun : p.status = .running) (h : p.StopsAt (k + 1))
    (hn : k + 1 ≤ n) :
    advance n p = ⟨(step (p.after k)).result, p.after (k + 1), p.events (k + 1)⟩ := by
  obtain ⟨m, rfl⟩ := Nat.exists_eq_add_of_le hn
  have hrun' : (p.after k).status = .running := (h.1.after hrun).1
  rw [Nat.add_assoc, Nat.add_comm 1 m, advance_add_of_lasts hrun h.1, after_succ', events_succ']
  cases hresult : (step (p.after k)).result with
  | error e => rw [advance_succ_of_error hrun' hresult]
  | ok status =>
    obtain ⟨rfl, hhalted⟩ := h.halted hrun hresult
    rw [after_succ'] at hhalted
    rw [advance_succ_of_ok hrun' hresult, advance_of_halted hhalted, List.append_nil]

end LS8.Processor
