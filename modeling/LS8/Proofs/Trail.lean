import LS8.Proofs.Reachable
import LS8.Proofs.Stretch

/-!
# The steps of a history

A history makes the processor attempt steps, and it does so in states that nothing but the history
determines.  `trail` lists the states in which up to `n` steps in a row are attempted; `Action.trail` does
the same for an action and `trailAlong` for a whole history.  The last attempt of a run may fail, and it is
on the trail like the others.  What an attempt comes to can be seen from its state: `performed?` is the
instruction that it carries out, if it succeeds.

So whatever is made by steps only can be computed along the trail.  For a log this is `advance_log`, and
for a view of the processor that loads and the tracing switch do not touch it is `Reaches.foldl`.
-/

namespace LS8.Processor

variable {p q : Processor} {i : Instruction} {n : Nat}

/-! ## One step -/

/-- The instruction that the next step carries out, if the step succeeds. -/
def performed? (p : Processor) : Option Instruction :=
  if p.status = .running ∧ (step p).result.isOk then
    (Decoding.instruction p.memory.read p.counter).result.toOption
  else none

theorem performed?_eq_some_iff : p.performed? = some i ↔ p.Performs i (step p).state := by
  rw [performs_iff_step, performed?]
  cases (Decoding.instruction p.memory.read p.counter).result <;>
    simp [Except.toOption, and_comm, and_left_comm]

/-- A step that carries no instruction out fails, or the processor has halted before. -/
theorem performed?_eq_none_iff :
    p.performed? = none ↔ p.status = .halted ∨ ∃ e, (step p).result = .error e := by
  cases hrun : p.status with
  | halted => simp [performed?, hrun]
  | running =>
    cases hstep : (step p).result with
    | error e => simp [performed?, hstep, Except.isOk, Except.toBool]
    | ok status =>
      obtain ⟨i, hi⟩ := exists_performs hrun hstep
      simp [performed?_eq_some_iff.mpr hi]

/-! ## Steps in a row -/

/-- The states in which up to `n` steps in a row are attempted, the first of them in `p`. -/
def trail : Nat → Processor → List Processor
  | 0, _ => []
  | n + 1, p =>
    match p.status with
    | .halted => []
    | .running => p :: match (step p).result with
      | .ok _ => trail n (step p).state
      | .error _ => []

theorem trail_of_halted (h : p.status = .halted) (n : Nat) : p.trail n = [] := by
  cases n <;> simp [trail, h]

theorem trail_succ_of_ok {status : Status} (hrun : p.status = .running)
    (h : (step p).result = .ok status) (n : Nat) :
    p.trail (n + 1) = p :: (step p).state.trail n := by
  simp [trail, hrun, h]

theorem trail_succ_of_error {e : Fault} (hrun : p.status = .running)
    (h : (step p).result = .error e) (n : Nat) : p.trail (n + 1) = [p] := by
  simp [trail, hrun, h]

/-- Induction along an advance, by what becomes of its first step. -/
@[elab_as_elim]
theorem advance_induction {motive : Nat → Processor → Prop} (zero : ∀ p, motive 0 p)
    (halted : ∀ n p, p.status = .halted → motive (n + 1) p)
    (error : ∀ n p e, p.status = .running → (step p).result = .error e → motive (n + 1) p)
    (ok : ∀ n p status, p.status = .running → (step p).result = .ok status →
      motive n (step p).state → motive (n + 1) p)
    (n : Nat) (p : Processor) : motive n p := by
  induction n generalizing p with
  | zero => exact zero p
  | succ n ih =>
    cases hrun : p.status with
    | halted => exact halted n p hrun
    | running =>
      cases hstep : (step p).result with
      | error e => exact error n p e hrun hstep
      | ok status => exact ok n p status hrun hstep (ih _)

/-- Advancing is taking the steps of the trail, one after the other. -/
theorem advance_trail (n : Nat) (p : Processor) :
    p.trail n = (List.range (p.trail n).length).map p.after ∧
      (advance n p).state = p.after (p.trail n).length ∧
      (advance n p).log = p.events (p.trail n).length := by
  induction n, p using advance_induction with
  | zero p => exact ⟨rfl, rfl, rfl⟩
  | halted n p hrun => simp [trail_of_halted hrun, advance_of_halted hrun]
  | error n p e hrun hstep =>
    rw [trail_succ_of_error hrun hstep, advance_succ_of_error hrun hstep]
    simp [after_succ, events_succ]
  | ok n p status hrun hstep ih =>
    obtain ⟨htrail, hstate, hlog⟩ := ih
    rw [trail_succ_of_ok hrun hstep, advance_succ_of_ok hrun hstep, List.length_cons,
      List.range_succ_eq_map, List.map_cons, List.map_map, after_succ, events_succ, hstate, hlog]
    refine ⟨?_, rfl, rfl⟩
    nth_rewrite 1 [htrail]
    rfl

/-- Advancing by one step is taking it. -/
theorem advance_one (p : Processor) :
    (advance 1 p).state = (step p).state ∧ (advance 1 p).log = (step p).log := by
  cases hrun : p.status with
  | halted => simp [advance_of_halted hrun, step_of_halted hrun]
  | running =>
    cases hstep : (step p).result with
    | error e => simp [advance_succ_of_error hrun hstep]
    | ok status => simp [advance_succ_of_ok hrun hstep]

/-- What is reported while advancing is reported by the steps of the trail. -/
theorem advance_log (n : Nat) (p : Processor) :
    (advance n p).log = (p.trail n).flatMap fun s => (step s).log := by
  obtain ⟨htrail, -, hlog⟩ := advance_trail n p
  rw [hlog, htrail, List.flatMap_map, List.length_map, List.length_range]
  rfl

/-- Only a running processor attempts a step. -/
theorem running_of_mem_trail {s : Processor} (h : s ∈ p.trail n) : s.status = .running := by
  induction n, p using advance_induction with
  | zero p => cases h
  | halted n p hrun =>
    rw [trail_of_halted hrun] at h
    cases h
  | error n p e hrun hstep =>
    rw [trail_succ_of_error hrun hstep] at h
    rw [List.mem_singleton.mp h, hrun]
  | ok n p status hrun hstep ih =>
    rw [trail_succ_of_ok hrun hstep] at h
    rcases List.mem_cons.mp h with rfl | hrest
    · exact hrun
    · exact ih hrest

/-! ## Actions and histories -/

/-- The number of steps that a run may take. -/
def allowance (p : Processor) : Option UInt64 → Nat
  | none => p.horizon
  | some limit => limit.toNat - p.steps.toNat

/-- A run that ends is an advance by as many steps as it may take. -/
theorem run_eq_advance {limit : Option UInt64} {o : Outcome Processor Fault Unit}
    (h : p.run limit = some o) :
    o.state = (advance (p.allowance limit) p).state ∧ o.log = (advance (p.allowance limit) p).log := by
  cases limit with
  | none =>
    have hsettle : settle (advance p.horizon p) = some o := h
    rcases hadvance : advance p.horizon p with ⟨e | _ | _, s, log⟩ <;>
      rw [hadvance] at hsettle <;> cases hsettle <;> simp [allowance, hadvance]
  | some limit =>
    cases h
    rcases hadvance : advance (limit.toNat - p.steps.toNat) p with ⟨e | _ | _, s, log⟩ <;>
      simp [runLimited, Transition.bind_apply, allowance, hadvance]

/-- The states in which an action attempts steps. -/
def Action.trail (p : Processor) : Action → List Processor
  | .step => p.trail 1
  | .run limit => p.trail (p.allowance limit)
  | .load _ | .setTracing _ => []

/-- An action advances the processor, along the trail of the action, or it is a load or a change of the
tracing switch. -/
theorem perform_cases {a : Action} {o : Outcome Processor ActionError (Option Status)}
    (h : p.perform a = some o) :
    (∃ n, a.trail p = p.trail n ∧ o.state = (advance n p).state ∧ o.log = (advance n p).log) ∨
    (∃ program, a = .load program ∧ o.state = (load program p).state ∧
      o.log = (load program p).log) ∨
    ∃ on, a = .setTracing on ∧ o.state = { p with tracing := on } ∧ o.log = [] := by
  cases a with
  | load program =>
    cases h
    exact .inr (.inl ⟨program, rfl, rfl, rfl⟩)
  | step =>
    cases h
    exact .inl ⟨1, rfl, (advance_one p).1.symm, (advance_one p).2.symm⟩
  | run limit =>
    obtain ⟨o', ho', rfl⟩ := Option.map_eq_some_iff.mp h
    exact .inl ⟨p.allowance limit, rfl, run_eq_advance ho'⟩
  | setTracing on =>
    cases h
    exact .inr (.inr ⟨on, rfl, rfl, rfl⟩)

/-- The states in which a history attempts steps. -/
def trailAlong : List Action → Processor → List Processor
  | [], _ => []
  | a :: rest, p => a.trail p ++
    match p.perform a with
    | some o => trailAlong rest o.state
    | none => []

theorem trailAlong_append {history : List Action} (h : p.Reaches history q) (rest : List Action) :
    p.trailAlong (history ++ rest) = p.trailAlong history ++ q.trailAlong rest := by
  induction h generalizing rest with
  | nil => rfl
  | @snoc history q a o _ hlast ih =>
    rw [List.append_assoc, ih, ih]
    simp [trailAlong, hlast]

/-- What a history reports. -/
def logAlong : List Action → Processor → List Event
  | [], _ => []
  | a :: rest, p =>
    match p.perform a with
    | some o => o.log ++ logAlong rest o.state
    | none => []

theorem logAlong_append {history : List Action} (h : p.Reaches history q) (rest : List Action) :
    p.logAlong (history ++ rest) = p.logAlong history ++ q.logAlong rest := by
  induction h generalizing rest with
  | nil => rfl
  | @snoc history q a o _ hlast ih =>
    rw [List.append_assoc, ih, ih]
    simp [logAlong, hlast]

/-! ## What is computed along a trail -/

section
variable {β : Type} (view : Processor → β) (effect : β → Processor → β)
  (hstep : ∀ s : Processor, s.status = .running → view (Processor.step s).state = effect (view s) s)
include hstep

/-- A view on which a step has a given effect is the sum of the effects along the trail. -/
theorem advance_foldl (n : Nat) (p : Processor) :
    view (advance n p).state = (p.trail n).foldl effect (view p) := by
  induction n, p using advance_induction with
  | zero p => rfl
  | halted n p hrun => rw [trail_of_halted hrun, advance_of_halted hrun, List.foldl_nil]
  | error n p e hrun hresult =>
    rw [trail_succ_of_error hrun hresult, advance_succ_of_error hrun hresult, List.foldl_cons,
      List.foldl_nil, hstep p hrun]
  | ok n p status hrun hresult ih =>
    rw [trail_succ_of_ok hrun hresult, advance_succ_of_ok hrun hresult, List.foldl_cons, ih,
      hstep p hrun]

variable (hload : ∀ s program, view (Processor.load program s).state = view s)
  (htracing : ∀ s on, view { s with tracing := on } = view s)
include hload htracing

theorem perform_foldl {a : Action} {o : Outcome Processor ActionError (Option Status)}
    (h : p.perform a = some o) : view o.state = (a.trail p).foldl effect (view p) := by
  rcases perform_cases h with ⟨n, htrail, hstate, -⟩ | ⟨program, rfl, hstate, -⟩ | ⟨on, rfl, hstate, -⟩
  · rw [htrail, hstate, advance_foldl view effect hstep]
  · rw [hstate]
    exact hload p program
  · rw [hstate]
    exact htracing p on

/-- If loads and the tracing switch do not touch the view either, it is the sum of the effects along
the history. -/
theorem Reaches.foldl {history : List Action} (h : p.Reaches history q) :
    view q = (p.trailAlong history).foldl effect (view p) := by
  induction h with
  | nil => rfl
  | @snoc history q a o hreaches hlast ih =>
    rw [trailAlong_append hreaches, List.foldl_append, ← ih,
      perform_foldl view effect hstep hload htracing hlast]
    simp [trailAlong, hlast]

end

end LS8.Processor
