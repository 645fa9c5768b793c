import LS8.Computer
import LS8.Proofs.Reachable

/-!
# The computer and its processor

A computer adds files and a flush to its processor, and no behaviour.  An action of a computer is one
action of the processor, or none at all (`counterpart`): a run is a run up to the computer's limit, a
load whose program fits is a load of that program, and a load that fails is nothing.  So whatever
history a computer has had, its processor is where its own history has taken it (`Reaches.processor`).

Two sizes are checked on the way of a program into memory, that of its file and that of the memory.
They agree, so the memory never gets to complain (`load_ne_memory`).  What was in the cells behind a
program stays there.

The flush at the end of a run changes the result of the run and what is reported, and nothing else.  A
run is reported to have halted when it has and the flush has worked (`halted_mem_conclude_iff`).  That
the report is the computer's own rests on steps never making it (`halted_notMem_run`).
-/

namespace LS8

/-! ## Files that are texts -/

theorem Files.text_of_error {files : Files} {path : String} {e : FileError}
    (h : files path = .error e) : files.text path = .error e := by
  rw [text, h]

theorem Files.text_of_invalid {files : Files} {path : String} {contents : ByteArray}
    (h : files path = .ok contents) (hinvalid : ¬ contents.IsValidUTF8) :
    files.text path = .error .invalidData := by
  simp only [text, h, String.fromUTF8?, dif_neg hinvalid]

theorem Files.text_of_valid {files : Files} {path source : String}
    (h : files path = .ok source.toUTF8) : files.text path = .ok source := by
  have hvalid : source.toUTF8.IsValidUTF8 := source.isValidUTF8
  simp only [text, h, String.fromUTF8?, dif_pos hvalid]
  rfl

namespace Processor

variable {p : Processor}

/-! ## What steps leave to the computer -/

/-- After a load the first cells hold the program, and the others what they held before. -/
theorem getElem_load {program : List UInt8} (h : program.length ≤ 256) (p : Processor) {i : Nat}
    (hi : i < 256) :
    (load program p).state.memory.cells[i] =
      if hlt : i < program.length then program[i] else p.memory.cells[i] := by
  simp only [load_of_fits h, Memory.getElem_copy, Nat.zero_le, if_true, Nat.sub_zero]
  split_ifs with hlt
  · exact List.getD_eq_getElem _ _ hlt
  · exact List.getD_eq_default _ _ (Nat.le_of_not_lt hlt)

/-- No instruction changes whether the sink can be flushed, or reports that the computer has
halted. -/
theorem Effect.flush_frame {i : Instruction} {k : Continuation} {q : Processor} {log : List Event}
    (h : Effect p i k q log) :
    q.sink.flushable = p.sink.flushable ∧ ∀ n, Event.halted n ∉ log := by
  cases h with
  | alu => simp
  | _ => exact ⟨rfl, by simp⟩

theorem Failure.flush_frame {i : Instruction} {e : Fault} {q : Processor} {log : List Event}
    (h : Failure p i e q log) :
    q.sink.flushable = p.sink.flushable ∧ ∀ n, Event.halted n ∉ log := by
  cases h <;> exact ⟨rfl, by simp⟩

theorem step_flush_frame (p : Processor) :
    (step p).state.sink.flushable = p.sink.flushable ∧ ∀ n, Event.halted n ∉ (step p).log := by
  have hannounced (n : UInt64) : Event.halted n ∉ p.announcement := by
    unfold announcement
    split_ifs <;> simp
  cases hrun : p.status with
  | halted =>
    rw [step_of_halted hrun]
    exact ⟨rfl, by simp⟩
  | running =>
    rcases step_cases hrun with ⟨d, -, hstep⟩ |
      ⟨i, -, ⟨k, q, log, heffect, hstep⟩ | ⟨e, q, log, hfail, hstep⟩⟩
    · rw [hstep]
      exact ⟨rfl, hannounced⟩
    · obtain ⟨hflush, hlog⟩ := heffect.flush_frame
      rw [hstep]
      exact ⟨by simpa using hflush, by simp [hannounced, hlog]⟩
    · obtain ⟨hflush, hlog⟩ := hfail.flush_frame
      rw [hstep]
      exact ⟨hflush, by simp [hannounced, hlog]⟩

/-- The steps of a run do not report that the computer has halted. -/
theorem halted_notMem_run {limit : Option UInt64} {o : Outcome Processor Fault Unit}
    (h : p.run limit = some o) (n : UInt64) : Event.halted n ∉ o.log := by
  obtain ⟨steps, -, hlog⟩ := after_of_run h
  rw [hlog, events, List.mem_flatMap]
  rintro ⟨j, -, hmem⟩
  exact (step_flush_frame _).2 n hmem

/-- Loads, steps and runs leave it to the sink whether it can be flushed. -/
theorem Reaches.flushable {q : Processor} {history : List Action} (h : p.Reaches history q) :
    q.sink.flushable = p.sink.flushable := by
  refine h.keeps (fun r => r.sink.flushable = p.sink.flushable) ?_ ?_ ?_ rfl
  · intro r program hr
    exact hr
  · intro r hr
    exact (step_flush_frame r).1.trans hr
  · intro r on hr
    exact hr

end Processor

namespace Computer

/-! ## Histories -/

/-- Something to be done to a computer. -/
inductive Action
  | load (path : String)
  | run
  deriving DecidableEq, Repr

/-- Why an action failed. -/
inductive ActionError
  | load (e : LoadError)
  | fault (e : Fault)
  deriving DecidableEq, Repr

/-- The outcome of an action, from the outcome of the operation that it consists of. -/
def ActionError.wrap {ε : Type} (cause : ε → ActionError) (o : Outcome Computer ε Unit) :
    Outcome Computer ActionError Unit :=
  ⟨o.result.mapError cause, o.state, o.log⟩

/-- Carries an action out; `none` if it never ends. -/
def perform (files : Files) (c : Computer) :
    Action → Option (Outcome Computer ActionError Unit)
  | .load path => some (ActionError.wrap .load (load files path c))
  | .run => c.run.map (ActionError.wrap .fault)

/-- The relation between a computer and what a history makes of it. -/
inductive Reaches (files : Files) (c : Computer) : List Action → Computer → Prop
  | nil : Reaches files c [] c
  | snoc {history : List Action} {d : Computer} {a : Action}
      {o : Outcome Computer ActionError Unit} :
      Reaches files c history d → d.perform files a = some o →
        Reaches files c (history ++ [a]) o.state

/-- What an action of a computer is to its processor. -/
def counterpart (files : Files) (limit : Option UInt64) : Action → List Processor.Action
  | .load path =>
    match files.text path with
    | .error _ => []
    | .ok source =>
      if (Listing.bytes source).length ≤ 256 then [.load (Listing.bytes source)] else []
  | .run => [.run limit]

variable {files : Files} {path source : String} {c d : Computer} {history : List Action}
  {limit : Option UInt64}

theorem counterpart_of_error {e : FileError} (h : files.text path = .error e) :
    counterpart files limit (.load path) = [] := by
  simp only [counterpart, h]

theorem counterpart_of_long (h : files.text path = .ok source)
    (hlong : 256 < (Listing.bytes source).length) :
    counterpart files limit (.load path) = [] := by
  simp only [counterpart, h, if_neg (Nat.not_le.mpr hlong)]

theorem counterpart_of_text (h : files.text path = .ok source)
    (hfits : (Listing.bytes source).length ≤ 256) :
    counterpart files limit (.load path) = [.load (Listing.bytes source)] := by
  simp only [counterpart, h, if_pos hfits]

/-! ## Loading -/

theorem load_of_error {e : FileError} (h : files.text path = .error e) (c : Computer) :
    load files path c = ⟨.error (.file e), c, []⟩ := by
  simp [load, Transition.bind_apply, h, Except.mapError]

theorem load_of_long (h : files.text path = .ok source)
    (hlong : 256 < (Listing.bytes source).length) (c : Computer) :
    load files path c = ⟨.error (.tooLong path 256), c, Listing.log source⟩ := by
  simp [load, Transition.bind_apply, h, Except.mapError, Transition.reportAll, hlong]

/-- A load of a program that fits is the processor's. -/
theorem load_of_text (h : files.text path = .ok source)
    (hfits : (Listing.bytes source).length ≤ 256) (c : Computer) :
    load files path c =
      let o := Processor.load (Listing.bytes source) c.processor
      ⟨.ok (), { c with processor := o.state },
        Listing.log source ++ o.log ++ [.loaded (Listing.bytes source).length path]⟩ := by
  simp [load, Transition.bind_apply, h, Except.mapError, Transition.reportAll, Transition.on,
    Transition.mapError, Processor.load_of_fits hfits, Nat.not_lt.mpr hfits]

/-- A program that passes the check of its file passes that of the memory. -/
theorem load_ne_memory (files : Files) (path : String) (c : Computer) (e : MemoryError) :
    (load files path c).result ≠ .error (.memory e) := by
  cases htext : files.text path with
  | error d =>
    rw [load_of_error htext]
    simp
  | ok source =>
    rcases Nat.lt_or_ge 256 (Listing.bytes source).length with hlong | hfits
    · rw [load_of_long htext hlong]
      simp
    · rw [load_of_text htext hfits]
      simp

/-! ## Running -/

theorem conclude_state (c : Computer) (o : Outcome Processor Fault Unit) :
    (c.conclude o).state = { c with processor := o.state } := by
  unfold conclude
  split_ifs
  · cases o.result <;> rfl
  · rfl

theorem conclude_result (c : Computer) (o : Outcome Processor Fault Unit) :
    (c.conclude o).result = if o.state.sink.flushable then o.result else .error .output := by
  unfold conclude
  split_ifs
  · cases o.result <;> rfl
  · rfl

/-- The report of a halt is the computer's own, and comes when nothing has failed. -/
theorem halted_mem_conclude_iff {o : Outcome Processor Fault Unit} {n : UInt64}
    (h : Event.halted n ∉ o.log) (c : Computer) :
    Event.halted n ∈ (c.conclude o).log ↔
      o.state.sink.flushable ∧ o.result = .ok () ∧ n = o.state.steps := by
  unfold conclude
  split_ifs with hflush
  · cases hresult : o.result <;> simp [hflush, h]
  · simp [hflush, h]

/-! ## Refinement -/

/-- One action of a computer is its counterpart on the processor. -/
theorem processor_perform {a : Action} {o : Outcome Computer ActionError Unit}
    (h : c.perform files a = some o) :
    c.processor.Reaches (counterpart files c.stepLimit a) o.state.processor ∧
      o.state.stepLimit = c.stepLimit := by
  cases a with
  | load path =>
    cases h
    cases htext : files.text path with
    | error e =>
      rw [counterpart_of_error htext, load_of_error htext]
      exact ⟨.nil, rfl⟩
    | ok source =>
      rcases Nat.lt_or_ge 256 (Listing.bytes source).length with hlong | hfits
      · rw [counterpart_of_long htext hlong, load_of_long htext hlong]
        exact ⟨.nil, rfl⟩
      · rw [counterpart_of_text htext hfits, load_of_text htext hfits]
        exact ⟨Processor.Reaches.nil.load _, rfl⟩
  | run =>
    obtain ⟨o', ho', rfl⟩ := Option.map_eq_some_iff.mp h
    obtain ⟨r, hr, rfl⟩ := Option.map_eq_some_iff.mp ho'
    unfold ActionError.wrap
    rw [conclude_state]
    exact ⟨Processor.Reaches.nil.run hr, rfl⟩

/-- A computer's processor is where the counterpart of the computer's history has taken it. -/
theorem Reaches.processor (h : c.Reaches files history d) :
    c.processor.Reaches (history.flatMap (counterpart files c.stepLimit)) d.processor ∧
      d.stepLimit = c.stepLimit := by
  induction h with
  | nil => exact ⟨.nil, rfl⟩
  | snoc _ hlast ih =>
    obtain ⟨hbefore, hlimit⟩ := ih
    obtain ⟨hafter, hlimit'⟩ := processor_perform hlast
    rw [hlimit] at hafter hlimit'
    refine ⟨?_, hlimit'⟩
    rw [List.flatMap_append, List.flatMap_singleton]
    exact hbefore.trans hafter

/-- **A computer refines its processor.**  Whatever its settings, the files and its history, a
computer's processor is where the counterpart of that history takes a new processor.  A load whose file
cannot be read, is no text or lists more than 256 bytes fails with the error that says so, and changes
nothing; any other load succeeds, puts the program into the first cells and leaves the others and all
else as they were.  A run leaves the processor as the processor's own run does.  It gives the result of
that run if the flush works, and the failure of the flush if not; and it reports a halt, with the number
of all steps, exactly if both have worked. -/
theorem reaches_refines {sink : Sink} {tracing : Bool}
    (h : (create sink tracing limit).Reaches files history c) :
    (Processor.initial sink).Reaches
      (.setTracing tracing :: history.flatMap (counterpart files limit)) c.processor ∧
    (∀ path e, files path = .error e →
      (load files path c).result = .error (.file e) ∧ (load files path c).state = c) ∧
    (∀ path contents, files path = .ok contents → ¬ contents.IsValidUTF8 →
      (load files path c).result = .error (.file .invalidData) ∧ (load files path c).state = c) ∧
    (∀ path source, files path = .ok source.toUTF8 → 256 < (Listing.bytes source).length →
      (load files path c).result = .error (.tooLong path 256) ∧ (load files path c).state = c) ∧
    (∀ path source, files path = .ok source.toUTF8 → (Listing.bytes source).length ≤ 256 →
      let program := Listing.bytes source
      let q := (load files path c).state.processor
      (load files path c).result = .ok () ∧
      (Processor.load program c.processor).result = .ok () ∧
      (load files path c).state = { c with processor := q } ∧
      q = (Processor.load program c.processor).state ∧
      q = { c.processor with memory := q.memory } ∧
      ∀ i, (hi : i < 256) →
        q.memory.cells[i] = if hlt : i < program.length then program[i]
          else c.processor.memory.cells[i]) ∧
    (∀ path e, (load files path c).result ≠ .error (.memory e)) ∧
    (c.processor.run limit = none → c.run = none) ∧
    (∀ o, c.processor.run limit = some o → ∃ o', c.run = some o' ∧
      o'.state = { c with processor := o.state } ∧
      o'.result = (if sink.flushable then o.result else .error .output) ∧
      ∀ n, .halted n ∈ o'.log ↔ sink.flushable ∧ o.result = .ok () ∧ n = o.state.steps) := by
  obtain ⟨hcounterpart, hlimit⟩ := h.processor
  have hcreate : (Processor.initial sink).Reaches [.setTracing tracing]
      (create sink tracing limit).processor := Processor.Reaches.nil.setTracing tracing
  have hreaches := hcreate.trans hcounterpart
  have hlimit' : c.stepLimit = limit := hlimit
  refine ⟨hreaches, ?_, ?_, ?_, ?_, fun path e => load_ne_memory files path c e, ?_, ?_⟩
  · intro path e hfile
    rw [load_of_error (Files.text_of_error hfile)]
    exact ⟨rfl, rfl⟩
  · intro path contents hfile hinvalid
    rw [load_of_error (Files.text_of_invalid hfile hinvalid)]
    exact ⟨rfl, rfl⟩
  · intro path source hfile hlong
    rw [load_of_long (Files.text_of_valid hfile) hlong]
    exact ⟨rfl, rfl⟩
  · intro path source hfile hfits program q
    have hload := load_of_text (Files.text_of_valid hfile) hfits c
    have hprocessor := Processor.load_of_fits hfits c.processor
    have hq : q = (Processor.load program c.processor).state := by
      show (load files path c).state.processor = _
      rw [hload]
    refine ⟨by rw [hload], by rw [hprocessor], by rw [hq, hload], hq, by rw [hq, hprocessor], ?_⟩
    intro i hi
    rw [hq, Processor.getElem_load hfits]
  · intro hnone
    rw [run, hlimit', hnone]
    rfl
  · intro o ho
    have hflush : o.state.sink.flushable = sink.flushable := (hreaches.run ho).flushable
    have hrun : c.run = some (c.conclude o) := by
      rw [run, hlimit', ho]
      rfl
    refine ⟨c.conclude o, hrun, conclude_state c o, ?_, ?_⟩
    · rw [conclude_result, hflush]
    · intro n
      rw [halted_mem_conclude_iff (Processor.halted_notMem_run ho n), hflush]

/-- A file that is not there, a program of one halt, and a sink that cannot be flushed. -/
theorem reaches_refines_unflushable :
    let files : Files := fun path => if path = "halt" then .ok "1".toUTF8 else .error .notFound
    let sink : Sink := ⟨"", none, false⟩
    ∃ c, (create sink true (some 5)).Reaches files [.load "gone", .load "halt"] c ∧
      (Processor.initial sink).Reaches [.setTracing true, .load [1]] c.processor ∧
      ∃ o, c.run = some o ∧ o.state.processor.status = .halted ∧ o.result = .error .output ∧
        ∀ n, .halted n ∉ o.log := by
  intro files sink
  have hgone : files "gone" = .error .notFound := rfl
  have hfile : files "halt" = .ok "1".toUTF8 := rfl
  have hbytes : Listing.bytes "1" = [1] := by decide
  let c := create sink true (some 5)
  let d : Computer := { c with processor := (Processor.load [1] c.processor).state }
  have hfirst : c.perform files (.load "gone") =
      some ⟨.error (.load (.file .notFound)), c, []⟩ := by
    rw [perform, load_of_error (Files.text_of_error hgone)]
    rfl
  obtain ⟨log, hsecond⟩ : ∃ log, c.perform files (.load "halt") = some ⟨.ok (), d, log⟩ := by
    have hfits : (Listing.bytes "1").length ≤ 256 := by decide
    rw [perform, load_of_text (Files.text_of_valid hfile) hfits, hbytes]
    exact ⟨_, rfl⟩
  have hreach : c.Reaches files [.load "gone", .load "halt"] d := by
    have hstart := Reaches.snoc Reaches.nil hfirst
    have hend := Reaches.snoc hstart hsecond
    exact hend
  obtain ⟨hprocessor, -, -, -, -, -, -, hrun⟩ := reaches_refines hreach
  have hcounterpart : [Action.load "gone", .load "halt"].flatMap (counterpart files (some 5)) =
      [.load [1]] := by
    simp only [List.flatMap_cons, List.flatMap_nil,
      counterpart_of_error (Files.text_of_error hgone),
      counterpart_of_text (Files.text_of_valid hfile) (by decide : (Listing.bytes "1").length ≤ 256),
      hbytes]
    rfl
  have hhalt : ((d.processor.run (some 5)).map fun o => o.state.status) = some .halted := by
    decide +kernel
  obtain ⟨o, ho, hstatus⟩ := Option.map_eq_some_iff.mp hhalt
  obtain ⟨o', ho', hstate, hresult, hreport⟩ := hrun o ho
  refine ⟨d, hreach, hcounterpart ▸ hprocessor, o', ho', ?_, hresult, ?_⟩
  · rw [hstate]
    exact hstatus
  · intro n hn
    obtain ⟨hflush, -⟩ := (hreport n).mp hn
    cases hflush

end Computer

end LS8
