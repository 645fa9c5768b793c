import LS8.Proofs.Alike
import LS8.Proofs.Trail

/-!
# What tracing adds

Tracing is for the reader.  Processors that `Agree` in everything but the tracing switch and the count of
steps take the same steps with the same results, failures among them, and they print the same
(`Agree.step`).  Their logs differ in the snapshots only.  A step's log is its snapshot, if it is traced,
and what it reports besides (`work`), and the latter never has the level of a snapshot.

So of what a run reports the events of level `info` are its snapshots, and these are one for each step
that was attempted: those of the states on the trail, in their order (`tracing_only_reports`).  Which part
of a log is shown is decided afterwards, event by event.
-/

namespace LS8.Processor

variable {p q : Processor} {i : Instruction} {k : Continuation} {e : Fault} {log : List Event} {n : Nat}

/-! ## The log of a step -/

/-- What the next step reports besides its snapshot. -/
def work (p : Processor) : List Event :=
  match p.status with
  | .halted => []
  | .running =>
    match (Decoding.instruction p.memory.read p.counter).result with
    | .error _ => []
    | .ok i => .decoded p.counter i :: (execute i p).log

theorem log_step (hrun : p.status = .running) : (step p).log = p.announcement ++ p.work := by
  rw [step_of_running hrun, work, hrun]
  cases (Decoding.instruction p.memory.read p.counter).result with
  | error e => simp
  | ok i => rcases hx : execute i p with ⟨e | k, q, log⟩ <;> simp [hx]

/-- An instruction reports nothing of the level of a snapshot, whether it succeeds or fails. -/
theorem level_of_mem_execute {event : Event} (h : event ∈ (execute i p).log) : event.level ≠ .info := by
  rcases effect_or_failure p i with ⟨k, q, log, heffect⟩ | ⟨e, q, log, hfail⟩
  · rw [heffect.execute_eq] at h
    cases heffect <;> simp_all [Event.level]
  · rw [hfail.execute_eq] at h
    cases hfail <;> simp_all [Event.level]

theorem level_of_mem_work {event : Event} (h : event ∈ p.work) : event.level ≠ .info := by
  unfold work at h
  split at h
  · cases h
  · split at h
    · cases h
    · rcases List.mem_cons.mp h with rfl | hexecute
      · simp [Event.level]
      · exact level_of_mem_execute hexecute

/-- Of what a step reports, what has the level of a snapshot is the snapshot. -/
theorem filter_log_step (hrun : p.status = .running) :
    (step p).log.filter (·.level = .info) = p.announcement := by
  have hwork : p.work.filter (·.level = .info) = [] :=
    List.filter_eq_nil_iff.mpr fun event h => by simpa using level_of_mem_work h
  rw [log_step hrun, List.filter_append, hwork, List.append_nil]
  unfold announcement
  split_ifs <;> rfl

/-- What has another level is the rest. -/
theorem filter_log_step_ne (p : Processor) : (step p).log.filter (·.level ≠ .info) = p.work := by
  cases hrun : p.status with
  | halted => simp [step_of_halted hrun, work, hrun]
  | running =>
    have hsnapshot : p.announcement.filter (·.level ≠ .info) = [] := by
      unfold announcement
      split_ifs <;> rfl
    rw [log_step hrun, List.filter_append, hsnapshot, List.nil_append, List.filter_eq_self]
    exact fun event h => by simpa using level_of_mem_work h

/-! ## Steps of processors that agree -/

/-- Two processors differ in the tracing switch and the count of steps at most. -/
structure Agree (p q : Processor) : Prop where
  memory : q.memory = p.memory
  registers : q.registers = p.registers
  flags : q.flags = p.flags
  counter : q.counter = p.counter
  status : q.status = p.status
  sink : q.sink = p.sink

theorem Agree.eq (h : Agree p q) : q = p.withSurroundings q.steps q.tracing p.sink := by
  obtain ⟨hmemory, hregisters, hflags, hcounter, hstatus, hsink⟩ := h
  cases q
  simp_all [withSurroundings]

theorem Agree.symm (h : Agree p q) : Agree q p :=
  ⟨h.memory.symm, h.registers.symm, h.flags.symm, h.counter.symm, h.status.symm, h.sink.symm⟩

theorem agree_withSurroundings (p : Processor) (steps : UInt64) (tracing : Bool) :
    Agree p (p.withSurroundings steps tracing p.sink) :=
  ⟨rfl, rfl, rfl, rfl, rfl, rfl⟩

theorem Agree.printed (h : Agree p q) (v : UInt8) : Agree (p.printed v) (q.printed v) := by
  rw [h.eq]
  exact ⟨rfl, rfl, rfl, rfl, rfl, rfl⟩

/-- An instruction does the same to processors that agree. -/
theorem Agree.execute (h : Agree p q) (i : Instruction) :
    (execute i q).result = (execute i p).result ∧
      Agree (execute i p).state (execute i q).state ∧
      (execute i q).log = (execute i p).log := by
  by_cases hprint : ∃ reg, i = .print reg
  · obtain ⟨reg, rfl⟩ := hprint
    have hvalue : q.value reg = p.value reg := by rw [h.eq]; rfl
    rw [execute_print, execute_print, hvalue, h.sink]
    split_ifs
    · exact ⟨rfl, h.printed _, rfl⟩
    · exact ⟨rfl, h.printed _, rfl⟩
    · exact ⟨rfl, h, rfl⟩
  · push Not at hprint
    obtain ⟨-, -, hsink⟩ := surroundings_execute hprint p
    rw [h.eq, execute_withSurroundings hprint, ← hsink]
    exact ⟨rfl, agree_withSurroundings .., rfl⟩

theorem Agree.follow (h : Agree p q) (i : Instruction) (k : Continuation) :
    Agree (p.follow i k) (q.follow i k) := by
  rw [h.eq]
  cases k <;> exact ⟨rfl, rfl, rfl, rfl, rfl, rfl⟩

/-- Processors that agree take the same step. -/
theorem Agree.step (h : Agree p q) :
    (step q).result = (step p).result ∧ Agree (step p).state (step q).state :=
  step_related (fun _ _ h => h.status) (fun _ _ i k h => h.follow i k) h.status
    (fun _ => by rw [h.memory, h.counter]) (fun _ => h) fun i _ => ⟨(h.execute i).1, (h.execute i).2.1⟩

/-- They report the same, but for the snapshots. -/
theorem Agree.work_eq (h : Agree p q) : q.work = p.work := by
  rw [work, work, h.status, h.memory, h.counter]
  cases p.status with
  | halted => rfl
  | running =>
    cases (Decoding.instruction p.memory.read p.counter).result with
    | error e => rfl
    | ok i => exact congrArg _ (h.execute i).2.2

theorem Agree.after (h : Agree p q) (n : Nat) : Agree (p.after n) (q.after n) := by
  induction n with
  | zero => exact h
  | succ n ih =>
    rw [after_succ', after_succ']
    exact ih.step.2

/-- Processors that agree advance equally far. -/
theorem Agree.advance (h : Agree p q) (n : Nat) :
    (advance n q).result = (advance n p).result ∧ Agree (advance n p).state (advance n q).state := by
  induction n, p using advance_induction generalizing q with
  | zero p => exact ⟨by rw [advance_zero, advance_zero, h.status], h⟩
  | halted n p hrun =>
    rw [advance_of_halted hrun, advance_of_halted (h.status.trans hrun)]
    exact ⟨rfl, h⟩
  | error n p e hrun hstep =>
    obtain ⟨hresult, hstate⟩ := h.step
    rw [advance_succ_of_error hrun hstep,
      advance_succ_of_error (h.status.trans hrun) (hresult.trans hstep)]
    exact ⟨rfl, hstate⟩
  | ok n p status hrun hstep ih =>
    obtain ⟨hresult, hstate⟩ := h.step
    rw [advance_succ_of_ok hrun hstep,
      advance_succ_of_ok (h.status.trans hrun) (hresult.trans hstep)]
    exact ih hstate

/-- If a run without a limit ends, it ends for processors that agree in the same way. -/
theorem Agree.runToHalt {o : Outcome Processor Fault Unit} (h : Agree p q)
    (ho : p.runToHalt = some o) :
    ∃ o', q.runToHalt = some o' ∧ o'.result = o.result ∧ Agree o.state o'.state := by
  have hhorizon : q.horizon = p.horizon := by rw [horizon, horizon, room, room, h.sink]
  obtain ⟨hresult, hstate⟩ := h.advance p.horizon
  rw [Processor.runToHalt] at ho ⊢
  rw [hhorizon]
  generalize Processor.advance p.horizon p = a at ho hresult hstate
  generalize Processor.advance p.horizon q = b at hresult hstate ⊢
  obtain ⟨result, s, log⟩ := a
  obtain ⟨result', s', log'⟩ := b
  obtain rfl : result' = result := hresult
  cases result' with
  | error e =>
    cases ho
    exact ⟨_, rfl, rfl, hstate⟩
  | ok status =>
    cases status with
    | halted =>
      cases ho
      exact ⟨_, rfl, rfl, hstate⟩
    | running => cases ho

/-- Processors that agree on the count of steps as well run alike, up to a limit or without one. -/
theorem Agree.run (h : Agree p q) (hsteps : q.steps = p.steps) (limit : Option UInt64) :
    (q.run limit).map (fun o => (o.result, o.state.sink)) =
      (p.run limit).map fun o => (o.result, o.state.sink) := by
  cases limit with
  | none =>
    rw [Processor.run, Processor.run]
    cases hp : p.runToHalt with
    | some o =>
      obtain ⟨o', ho', hresult, hstate⟩ := h.runToHalt hp
      simp [ho', hresult, hstate.sink]
    | none =>
      cases hq : q.runToHalt with
      | none => rfl
      | some o' =>
        obtain ⟨o, ho, -⟩ := h.symm.runToHalt hq
        rw [hp] at ho
        cases ho
  | some limit =>
    obtain ⟨hresult, hstate⟩ := h.advance (limit.toNat - p.steps.toNat)
    rw [Processor.run, Processor.run]
    rcases hp : Processor.advance (limit.toNat - p.steps.toNat) p with ⟨r, s, log⟩
    rcases hq : Processor.advance (limit.toNat - p.steps.toNat) q with ⟨r', s', log'⟩
    rw [hp, hq] at hresult hstate
    obtain rfl : r' = r := hresult
    have hsink : s'.sink = s.sink := hstate.sink
    rw [← hsteps] at hq
    by_cases hr : r' = .ok .running
    · subst hr
      simp [runLimited_of_advance_running hp, runLimited_of_advance_running hq, hsink]
    · simp [runLimited_of_advance hp hr, runLimited_of_advance hq hr, hsink]

theorem Agree.events (h : Agree p q) (n : Nat) :
    (q.events n).filter (·.level ≠ .info) = (p.events n).filter (·.level ≠ .info) := by
  simp only [Processor.events, List.filter_flatMap, filter_log_step_ne, (h.after _).work_eq]

/-! ## The snapshots of a run -/

theorem tracing_step (p : Processor) : (step p).state.tracing = p.tracing := by
  cases hrun : p.status with
  | halted => rw [step_of_halted hrun]
  | running =>
    rcases step_cases hrun with ⟨d, -, hstep⟩ |
      ⟨i, -, ⟨k, q, log, heffect, hstep⟩ | ⟨e, q, log, hfail, hstep⟩⟩
    · rw [hstep]
    · rw [hstep, (follow_frame q i k).2.2.2.1, heffect.frame.2.2.2]
    · rw [hstep, hfail.frame.2.2.2.2]

/-- Steps do not touch the tracing switch. -/
theorem tracing_of_mem_trail {s : Processor} (h : s ∈ p.trail n) : s.tracing = p.tracing := by
  rw [(advance_trail n p).1, List.mem_map] at h
  obtain ⟨j, -, rfl⟩ := h
  exact after_keeps (·.tracing = p.tracing) (fun s hs => (tracing_step s).trans hs) rfl j

/-- The snapshots that are reported while advancing. -/
theorem filter_log_advance (n : Nat) (p : Processor) :
    (advance n p).log.filter (·.level = .info) =
      if p.tracing then (p.trail n).map fun s => .traced s.snapshot else [] := by
  have hsteps : (p.trail n).flatMap (fun s => (step s).log.filter (·.level = .info)) =
      (p.trail n).flatMap fun s => if p.tracing then [.traced s.snapshot] else [] := by
    refine List.flatMap_congr fun s hs => ?_
    rw [filter_log_step (running_of_mem_trail hs), announcement, tracing_of_mem_trail hs]
  rw [advance_log, List.filter_flatMap, hsteps]
  split_ifs <;> simp [List.map_eq_flatMap]

/-- The snapshots that an action reports are those of the states in which it attempts a step. -/
theorem filter_log_perform {a : Action} {o : Outcome Processor ActionError (Option Status)}
    (h : p.perform a = some o) : o.log.filter (·.level = .info) =
      if p.tracing then (a.trail p).map fun s => .traced s.snapshot else [] := by
  rcases perform_cases h with ⟨n, htrail, -, hlog⟩ | ⟨program, rfl, -, hlog⟩ | ⟨on, rfl, -, hlog⟩
  · rw [hlog, htrail, filter_log_advance]
  · have hload : (load program p).log.filter (·.level = .info) = [] := by
      by_cases hfits : program.length ≤ 256 <;>
        simp [load, Transition.on, Memory.load, Transition.bind_apply, hfits, Event.level]
    rw [hlog, hload]
    simp [Action.trail]
  · simp [hlog, Action.trail]

/-! ## Logs -/

/-- What a threshold shows is what a more generous one shows, without the events that are less severe. -/
theorem shown_filter {lower upper : Level} (h : lower.rank ≤ upper.rank) (log : List Event) :
    Log.shown lower log = (Log.shown upper log).filter fun e => e.level.rank ≤ lower.rank := by
  rw [Log.shown, Log.shown, List.filter_filter]
  refine List.filter_congr fun e _ => ?_
  have hupper : e.level.rank ≤ lower.rank → e.level.rank ≤ upper.rank := fun hlower => hlower.trans h
  simpa [Level.admits] using hupper

/-- The most generous threshold shows the whole log. -/
theorem shown_trace (log : List Event) : Log.shown .trace log = log := by
  refine List.filter_eq_self.mpr fun e _ => ?_
  cases h : e.level <;> rfl

/-- **Tracing, logging and counting have no effect, and the trace is what happened.**  Two processors that
differ in the tracing switch and the count of steps at most give the same result in every step and go on
agreeing in everything else, and but for the snapshots they report the same.  So their runs without a
limit end in the same way, if they end.  A processor that is tracing reports one snapshot for each step
that is attempted, in order, of the state before it, whether the step succeeds or not; one that is not
tracing reports none.  A stretch of a run that never ends is no exception.  What a threshold shows of a
log is what a more generous one shows, less the events that are not as severe, and the most generous one
shows all. -/
theorem tracing_only_reports (h : Agree p q) :
    (∀ n, (step (q.after n)).result = (step (p.after n)).result ∧ Agree (p.after n) (q.after n) ∧
      (q.events n).filter (·.level ≠ .info) = (p.events n).filter (·.level ≠ .info)) ∧
    (∀ o, p.run none = some o →
      ∃ o', q.run none = some o' ∧ o'.result = o.result ∧ Agree o.state o'.state) ∧
    (∀ a o, p.perform a = some o → o.log.filter (·.level = .info) =
      if p.tracing then (a.trail p).map fun s => .traced s.snapshot else []) ∧
    (∀ n, (advance n p).log.filter (·.level = .info) =
      if p.tracing then (p.trail n).map fun s => .traced s.snapshot else []) ∧
    (∀ lower upper log, lower.rank ≤ upper.rank →
      Log.shown lower log = (Log.shown upper log).filter fun e => e.level.rank ≤ lower.rank) ∧
    ∀ log, Log.shown .trace log = log :=
  ⟨fun n => ⟨(h.after n).step.1, h.after n, h.events n⟩, fun _ => h.runToHalt,
    fun _ _ => filter_log_perform, fun n => filter_log_advance n p,
    fun _ _ log hrank => shown_filter hrank log, shown_trace⟩

/-- A traced run whose third step fails, after a line of output. -/
theorem tracing_only_reports_three :
    let q := loaded .unlimited [0x82, 0, 8, 0x47, 0, 0x47, 9]
    let p := { q with tracing := true, steps := 7 }
    let o := runLimited 20 p
    (Agree p q ∧ p.perform (.run (some 20)) = some (ActionError.wrap .fault (fun _ => none) o) ∧
      Level.info.rank ≤ Level.debug.rank) ∧
    (step (p.after 2)).result = .error (noRegister 9) ∧
    (step (q.after 2)).result = .error (noRegister 9) ∧ (q.after 3).sink = (p.after 3).sink ∧
    o.log.filter (·.level = .info) =
      [.traced p.snapshot, .traced (p.after 1).snapshot, .traced (p.after 2).snapshot] ∧
    Log.shown .info o.log = (Log.shown .debug o.log).filter (·.level.rank ≤ Level.info.rank) := by
  intro q p o
  have hagree : Agree p q := ⟨rfl, rfl, rfl, rfl, rfl, rfl⟩
  have hfails : (step (p.after 2)).result = .error (noRegister 9) := by decide +kernel
  have hlength : (p.trail 13).length = 3 := by decide +kernel
  have htrail : (Action.run (some 20)).trail p = [p, p.after 1, p.after 2] := by
    show p.trail 13 = _
    rw [(advance_trail 13 p).1, hlength]
    rfl
  have hrun : p.perform (.run (some 20)) = some (ActionError.wrap .fault (fun _ => none) o) := rfl
  have htracing : p.tracing = true := rfl
  clear_value o p q
  obtain ⟨hsteps, -, hsnapshots, -, hshown, -⟩ := tracing_only_reports hagree
  have hrank : Level.info.rank ≤ Level.debug.rank := by decide
  have hlog := hsnapshots _ _ hrun
  rw [htrail, htracing] at hlog
  exact ⟨⟨hagree, hrun, hrank⟩, hfails, (hsteps 2).1.trans hfails, (hsteps 3).2.1.sink, hlog,
    hshown _ _ _ hrank⟩

end LS8.Processor
