import LS8.Proofs.Output
import LS8.Proofs.Standstill

/-!
# What a full sink does to a program

Nothing in a program can tell how much room its sink has left, but for the print that does not fit.  So
of two processors of which one is `capped` and the other prints to a sink that takes everything, the
first does what the second does, step by step, as long as the output of the second stays within the
capacity (`after_capped`).  The step at which it does not is a print (`step_capped_of_exceeds`).  The
capped processor has no room for all of the line: it takes what fits, fails, and is `Stuck` there.  A
stuck processor tries the same print in each further step, and nothing comes of it until a program is
loaded over it.

The output is cut off and otherwise right: it is the beginning of what would have been printed
(`capacity_only_truncates`).
-/

namespace LS8

/-! ## Capped sinks -/

namespace Sink

variable {s : Sink} {L : Nat} {text : String}

/-- The sink with a capacity. -/
def capped (s : Sink) (L : Nat) : Sink := { s with capacity := some L }

theorem accepts_capped_iff : (s.capped L).accepts text ↔ text.length ≤ L - s.written.length :=
  decide_eq_true_iff

theorem write_of_unlimited (h : s.capacity = none) (text : String) :
    s.write text = { s with written := s.written ++ text } := by
  simp [write, fitting, h]

/-- What fits within the capacity is taken as a whole. -/
theorem write_capped (h : s.capacity = none) (hfits : (s.write text).written.length ≤ L) :
    (s.capped L).accepts text ∧ (s.capped L).write text = (s.write text).capped L := by
  rw [write_of_unlimited h, String.length_append] at hfits
  have haccepts : (s.capped L).accepts text := accepts_capped_iff.mpr (by omega)
  refine ⟨haccepts, ?_⟩
  rw [write_of_unlimited h, write, fitting_of_accepts haccepts]
  rfl

/-- What does not fit is refused, and taken as far as it fits. -/
theorem write_capped_of_exceeds (h : s.capacity = none) (hroom : s.written.length ≤ L)
    (hexceeds : L < (s.write text).written.length) :
    (s.capped L).accepts text = false ∧ (s.capped L).write text =
      { s.capped L with written := String.ofList ((s.write text).written.toList.take L) } := by
  rw [write_of_unlimited h, String.length_append] at hexceeds
  have hrefuses : ¬ (s.capped L).accepts text := by
    rw [accepts_capped_iff]
    omega
  refine ⟨Bool.not_eq_true _ ▸ hrefuses, ?_⟩
  have hbegin : s.written.toList.take L = s.written.toList :=
    List.take_of_length_le (by rwa [String.length_toList])
  rw [write_of_unlimited h, String.toList_append, List.take_append, hbegin, String.length_toList,
    String.ofList_append, String.ofList_toList]
  rfl

end Sink

namespace Processor

variable {p q u : Processor} {i : Instruction} {reg : UInt8} {L n : Nat}

/-! ## Prints -/

/-- A print of a register that exists writes a line as far as the sink takes it, and fails if it does not
take all of it. -/
theorem Attempts.step_print (h : p.Attempts (.print reg)) (hreg : reg < 8) :
    step p =
      if p.sink.accepts (printedLine (p.value reg)) then
        ⟨.ok .running, (p.printed (p.value reg)).follow (.print reg) .next,
          p.announcement ++ [.decoded p.counter (.print reg)]⟩
      else
        ⟨.error .output, p.printed (p.value reg), p.announcement ++ [.decoded p.counter (.print reg)]⟩ := by
  rw [step_of_running h.1, h.2]
  simp only [execute_print, if_pos hreg]
  split_ifs
  · simp [follow, h.1]
  · rfl

/-- Any other step leaves the sink alone. -/
theorem sink_step_cases (p : Processor) :
    (step p).state.sink = p.sink ∨ ∃ reg < 8, p.Attempts (.print reg) := by
  cases hrun : p.status with
  | halted => simp [step_of_halted hrun]
  | running =>
    rcases step_cases hrun with ⟨d, -, hstep⟩ |
      ⟨i, hi, ⟨k, q, log, heffect, hstep⟩ | ⟨e, q, log, hfail, hstep⟩⟩
    · simp [hstep]
    · rw [hstep]
      cases heffect with
      | print hreg => exact .inr ⟨_, hreg, hi⟩
      | _ => simp
    · rw [hstep]
      cases hfail with
      | refused hreg => exact .inr ⟨_, hreg, hi⟩
      | _ => exact .inl rfl

/-! ## Capped processors -/

/-- The processor with a capacity for its sink. -/
def capped (p : Processor) (L : Nat) : Processor := { p with sink := p.sink.capped L }

theorem printed_capped {v : UInt8} (h : u.sink.capacity = none)
    (hfits : (u.printed v).sink.written.length ≤ L) :
    (u.capped L).sink.accepts (printedLine v) ∧ (u.capped L).printed v = (u.printed v).capped L := by
  obtain ⟨haccepts, hwrite⟩ := Sink.write_capped h hfits
  refine ⟨haccepts, ?_⟩
  rw [printed, capped, hwrite]
  rfl

/-- As long as the output fits, an instruction does what it does if the sink takes everything. -/
theorem execute_capped (h : u.sink.capacity = none)
    (hfits : (execute i u).state.sink.written.length ≤ L) :
    (execute i (u.capped L)).result = (execute i u).result ∧
      (execute i (u.capped L)).state = (execute i u).state.capped L := by
  by_cases hprint : ∃ reg, i = .print reg
  · obtain ⟨reg, rfl⟩ := hprint
    have hvalue : (u.capped L).value reg = u.value reg := rfl
    have haccepts : u.sink.accepts (printedLine (u.value reg)) := by simp [Sink.accepts, h]
    rw [execute_print] at hfits
    rw [execute_print, execute_print, hvalue, if_pos haccepts]
    split_ifs at hfits ⊢ with hreg hcapped
    · exact ⟨rfl, (printed_capped h hfits).2⟩
    · exact absurd (printed_capped h hfits).1 hcapped
    · exact ⟨rfl, rfl⟩
  · push Not at hprint
    obtain ⟨hsteps, htracing, hsink⟩ := surroundings_execute hprint u
    have hcapped : (execute i u).state.withSurroundings u.steps u.tracing (u.sink.capped L) =
        (execute i u).state.capped L := by
      rw [← hsteps, ← htracing, ← hsink]
      rfl
    have hexecute : execute i (u.capped L) = _ :=
      execute_withSurroundings hprint u u.steps u.tracing (u.sink.capped L)
    rw [hexecute, hcapped]
    exact ⟨rfl, rfl⟩

/-- As long as the output fits, a step goes as if the sink took everything. -/
theorem step_capped (h : u.sink.capacity = none)
    (hfits : (step u).state.sink.written.length ≤ L) :
    (step (u.capped L)).result = (step u).result ∧
      (step (u.capped L)).state = (step u).state.capped L := by
  have hfollow (p q : Processor) (i : Instruction) (k : Continuation) (hq : q = p.capped L) :
      q.follow i k = (p.follow i k).capped L := by
    rw [hq]
    cases k <;> rfl
  refine step_related (R := fun p q => q = p.capped L) (fun p q hq => hq ▸ rfl) hfollow rfl
    (fun _ => rfl) (fun _ => rfl) fun i hi => ?_
  -- Moving on does not touch the sink, so what the step has written the instruction has.
  have hsink : (step u).state.sink = (execute i u).state.sink := by
    rw [step_of_running hi.1, hi.2]
    rcases hx : execute i u with ⟨e | k, q, log⟩ <;> simp [hx]
  exact execute_capped h (hsink ▸ hfits)

/-- The step that prints more than fits fails, and takes what fits. -/
theorem step_capped_of_exceeds (h : u.sink.capacity = none) (hroom : u.sink.written.length ≤ L)
    (hexceeds : L < (step u).state.sink.written.length) :
    ∃ reg < 8, u.Attempts (.print reg) ∧ (step (u.capped L)).result = .error .output ∧
      (step (u.capped L)).state = { u.capped L with
        sink := { u.sink.capped L with
          written := String.ofList ((step u).state.sink.written.toList.take L) } } := by
  rcases sink_step_cases u with hsame | ⟨reg, hreg, hi⟩
  · rw [hsame] at hexceeds
    omega
  · refine ⟨reg, hreg, hi, ?_⟩
    have hvalue : (u.capped L).value reg = u.value reg := rfl
    have hi' : (u.capped L).Attempts (.print reg) := hi
    have haccepts : u.sink.accepts (printedLine (u.value reg)) := by simp [Sink.accepts, h]
    have hwritten : (step u).state.sink = u.sink.write (printedLine (u.value reg)) := by
      rw [hi.step_print hreg, if_pos haccepts]
      rfl
    rw [hwritten] at hexceeds ⊢
    obtain ⟨hrefuses, hwrite⟩ := Sink.write_capped_of_exceeds h hroom hexceeds
    have hstep := hi'.step_print hreg
    rw [hvalue, show (u.capped L).sink = u.sink.capped L from rfl, hrefuses] at hstep
    rw [hstep, ← hwrite]
    exact ⟨rfl, rfl⟩

/-! ## Two runs -/

/-- The output after some steps begins with the output after fewer. -/
theorem exists_written_of_le {m : Nat} (h : u.sink.capacity = none) (hnm : n ≤ m) :
    ∃ text, (u.after m).sink.written = (u.after n).sink.written ++ text := by
  obtain ⟨k, rfl⟩ := Nat.exists_eq_add_of_le hnm
  have hunlimited : (u.after n).sink.capacity = none := (u.sink_after n).1.trans h
  rw [after_add, sink_after_of_unlimited hunlimited]
  exact ⟨_, rfl⟩

theorem length_written_le {m : Nat} (h : u.sink.capacity = none) (hnm : n ≤ m) :
    (u.after n).sink.written.length ≤ (u.after m).sink.written.length := by
  obtain ⟨text, htext⟩ := exists_written_of_le h hnm
  rw [htext, String.length_append]
  exact Nat.le_add_right _ _

/-- Once the output has `L` characters, the first `L` of them stay the same. -/
theorem take_written_of_le {m : Nat} (h : u.sink.capacity = none) (hnm : n ≤ m)
    (hlong : L ≤ (u.after n).sink.written.length) :
    (u.after m).sink.written.toList.take L = (u.after n).sink.written.toList.take L := by
  obtain ⟨text, htext⟩ := exists_written_of_le h hnm
  rw [← String.length_toList] at hlong
  rw [htext, String.toList_append, List.take_append_of_le_length hlong]

/-- As long as the output fits, the two runs are in the same state after each step. -/
theorem after_capped (h : u.sink.capacity = none) (hfits : (u.after n).sink.written.length ≤ L) :
    (u.capped L).after n = (u.after n).capped L := by
  induction n with
  | zero => rfl
  | succ n ih =>
    have hunlimited : (u.after n).sink.capacity = none := (u.sink_after n).1.trans h
    have hbefore := ih ((length_written_le h (Nat.le_succ n)).trans hfits)
    rw [after_succ'] at hfits ⊢
    rw [hbefore, (step_capped hunlimited hfits).2, after_succ']

/-- As long as it does, their steps have the same results. -/
theorem result_after_capped (h : u.sink.capacity = none)
    (hfits : (u.after (n + 1)).sink.written.length ≤ L) :
    (step ((u.capped L).after n)).result = (step (u.after n)).result := by
  have hbefore := (length_written_le h (Nat.le_succ n)).trans hfits
  rw [after_succ'] at hfits
  rw [after_capped h hbefore]
  exact (step_capped ((u.sink_after n).1.trans h) hfits).1

/-- An output that exceeds the capacity does so from some step on. -/
theorem exists_exceeding {m : Nat} (hroom : u.sink.written.length ≤ L)
    (hexceeds : L < (u.after m).sink.written.length) :
    ∃ n < m, (u.after n).sink.written.length ≤ L ∧ L < (u.after (n + 1)).sink.written.length := by
  induction m with
  | zero => exact absurd hexceeds (Nat.not_lt.mpr hroom)
  | succ m ih =>
    by_cases hbefore : L < (u.after m).sink.written.length
    · obtain ⟨n, hn, hfound⟩ := ih hbefore
      exact ⟨n, Nat.lt_succ_of_lt hn, hfound⟩
    · exact ⟨m, Nat.lt_succ_self m, Nat.le_of_not_lt hbefore, hexceeds⟩

/-! ## Stuck processors -/

/-- A line is to be printed and the sink is full. -/
def Stuck (p : Processor) : Prop :=
  ∃ reg < 8, p.Attempts (.print reg) ∧ ∃ L, p.sink.capacity = some L ∧ L ≤ p.sink.written.length

theorem length_printedLine_pos (v : UInt8) : 0 < (printedLine v).length := by
  rw [← String.length_toList, toList_printedLine, List.length_append]
  exact Nat.succ_pos _

/-- A stuck processor fails and stays as it is. -/
theorem Stuck.step_eq (h : p.Stuck) : (step p).result = .error .output ∧ (step p).state = p := by
  obtain ⟨reg, hreg, hi, L, hcapacity, hfull⟩ := h
  have hline := length_printedLine_pos (p.value reg)
  have hrefuses : ¬ p.sink.accepts (printedLine (p.value reg)) := by
    simp only [Sink.accepts, hcapacity, decide_eq_true_eq]
    omega
  have hnothing : p.printed (p.value reg) = p := by
    have hnone : p.sink.fitting (printedLine (p.value reg)) = "" := by
      simp [Sink.fitting, hcapacity, Nat.sub_eq_zero_of_le hfull]
    rw [printed, Sink.write, hnone, String.append_empty]
  rw [hi.step_print hreg, if_neg hrefuses]
  exact ⟨rfl, hnothing⟩

/-- A capped processor is stuck after the first print that does not fit. -/
theorem stuck_of_exceeds (h : u.sink.capacity = none) (hroom : u.sink.written.length ≤ L)
    (hexceeds : L < (step u).state.sink.written.length) : (step (u.capped L)).state.Stuck := by
  obtain ⟨reg, hreg, hi, -, hstate⟩ := step_capped_of_exceeds h hroom hexceeds
  rw [hstate]
  refine ⟨reg, hreg, hi, L, rfl, ?_⟩
  rw [String.length_ofList, List.length_take, String.length_toList]
  exact le_min (le_refl L) hexceeds.le

/-- Without a load, a stuck processor stays stuck. -/
theorem Reaches.of_stuck {history : List Action} (h : p.Stuck) (hreaches : p.Reaches history q)
    (hload : ∀ program, .load program ∉ history) : q = { p with tracing := q.tracing } := by
  induction hreaches with
  | nil => rfl
  | @snoc history q a o _ hlast ih =>
    have hq := ih fun program hmem => hload program (List.mem_append_left _ hmem)
    have hstuck : q.Stuck := by
      rw [hq]
      exact h
    have hmemory : a.loadInto q.memory = q.memory := by
      cases a with
      | load program => exact absurd (List.mem_append_right _ (List.mem_singleton_self _)) (hload program)
      | _ => rfl
    have ho := perform_of_step_eq hstuck.step_eq.2 hlast
    rw [ho, hmemory, hq]

/-! ## Capacities -/

/-- **A capacity cuts the output off and does nothing else.**  Compare a processor whose sink takes
everything with the same processor whose sink has a capacity that its output so far does not exceed.
After every step up to which the output stays within the capacity, the two are in the same state and all
their steps have had the same results.  If it exceeds the capacity in the end, then at a first step, which
is a print.  That print fails in front of the capped sink.  The output is then cut off at the capacity,
and everything else is what it was before that step; each further step fails in the same way and writes
nothing, until a program is loaded.  The output that is not cut off consists of one line for each value
printed, in order, from which the values can be read; each of its characters is one byte. -/
theorem capacity_only_truncates (hunlimited : u.sink.capacity = none)
    (hroom : u.sink.written.length ≤ L) :
    let p := u.capped L
    let output := fun n => (u.after n).sink.written
    (∀ n, (output n).length ≤ L → p.after n = (u.after n).capped L ∧
      ∀ j < n, (step (p.after j)).result = (step (u.after j)).result) ∧
    (∀ m, L < (output m).length → ∃ n < m,
      ((output n).length ≤ L ∧ L < (output (n + 1)).length) ∧
      (∃ reg < 8, (p.after n).Attempts (.print reg)) ∧ (step (p.after n)).result = .error .output ∧
      p.after (n + 1) = { p.after n with
        sink := { (p.after n).sink with written := String.ofList ((output m).toList.take L) } } ∧
      ∀ history q, (p.after (n + 1)).Reaches history q → (∀ program, .load program ∉ history) →
        q = { p.after (n + 1) with tracing := q.tracing } ∧
          (step q).result = .error .output ∧ (step q).state = q) ∧
    ∀ history q, u.Reaches history q →
      let printed := (u.trailAlong history).filterMap printing?
      q.sink.written = u.sink.written ++ printedText printed ∧
        (printedText printed).utf8ByteSize = (printedText printed).length ∧
        (Text.lines (printedText printed).toList).map (Numeral.unsigned? 10 255) =
          printed.map fun v => some v.toNat := by
  intro p output
  refine ⟨fun n hfits => ⟨after_capped hunlimited hfits, fun j hj => ?_⟩, fun m hexceeds => ?_,
    fun history q hreaches => ⟨?_, utf8ByteSize_printedText _, lines_printedText _⟩⟩
  · exact result_after_capped hunlimited ((length_written_le hunlimited hj).trans hfits)
  · obtain ⟨n, hn, hfits, hexceeds'⟩ := exists_exceeding hroom hexceeds
    have hcapped : p.after n = (u.after n).capped L := after_capped hunlimited hfits
    have hunlimited' : (u.after n).sink.capacity = none := (u.sink_after n).1.trans hunlimited
    have hwritten : (output m).toList.take L = (output (n + 1)).toList.take L :=
      take_written_of_le hunlimited hn hexceeds'.le
    refine ⟨n, hn, ⟨hfits, hexceeds'⟩, ?_⟩
    rw [after_succ'] at hexceeds'
    obtain ⟨reg, hreg, hi, hfails, hstate⟩ := step_capped_of_exceeds hunlimited' hfits hexceeds'
    have hstuck := stuck_of_exceeds hunlimited' hfits hexceeds'
    rw [← hcapped] at hfails hstate hstuck
    rw [← after_succ'] at hstate hstuck
    refine ⟨⟨reg, hreg, hcapped ▸ hi⟩, hfails, ?_, fun history q hreaches hload => ?_⟩
    · rw [hstate, hwritten, hcapped]
      rw [← after_succ']
      rfl
    · have hq := hreaches.of_stuck hstuck hload
      have hstuck' : q.Stuck := hq ▸ hstuck
      exact ⟨hq, hstuck'.step_eq⟩
  · rw [hreaches.sink_eq hunlimited]

/-- A program that prints two lines of three characters, in front of a sink for four. -/
theorem capacity_only_truncates_four :
    let u := loaded .unlimited [0x82, 0, 42, 0x47, 0, 0x47, 0, 0x01]
    let p := u.capped 4
    let r := (runLimited 9 u).state
    ((u.sink.capacity = none ∧ u.sink.written.length ≤ 4) ∧ (u.after 2).sink.written.length ≤ 4 ∧
      4 < (u.after 3).sink.written.length ∧ u.Reaches [.run (some 9)] r) ∧
    p.after 2 = (u.after 2).capped 4 ∧ (step (p.after 1)).result = (step (u.after 1)).result ∧
    (∃ n < 3, (step (p.after n)).result = .error .output ∧
      (p.after (n + 1)).sink.written = "42\n4" ∧
      (step { p.after (n + 1) with tracing := true }).result = .error .output) ∧
    r.sink.written = printedText [42, 42] := by
  intro u p r
  have hunlimited : u.sink.capacity = none := rfl
  have hroom : u.sink.written.length ≤ 4 := by decide +kernel
  have hfits : (u.after 2).sink.written.length ≤ 4 := by decide +kernel
  have hexceeds : 4 < (u.after 3).sink.written.length := by decide +kernel
  have hrun : u.run (some 9) = some (runLimited 9 u) := rfl
  have hreaches : u.Reaches [.run (some 9)] r := Reaches.nil.run hrun
  have hcut : String.ofList ((u.after 3).sink.written.toList.take 4) = "42\n4" := by decide +kernel
  have hprinted : (u.trailAlong [.run (some 9)]).filterMap printing? = [42, 42] := by decide +kernel
  have hempty : u.sink.written = "" := rfl
  clear_value r
  obtain ⟨hbefore, hlater, hhistory⟩ := capacity_only_truncates hunlimited hroom
  obtain ⟨hsame, hresults⟩ := hbefore 2 hfits
  obtain ⟨n, hn, -, -, hfails, hstate, hstuck⟩ := hlater 3 hexceeds
  obtain ⟨hoff, -⟩ := hhistory _ r hreaches
  obtain ⟨-, hagain, -⟩ := hstuck _ _ (Reaches.nil.setTracing true) (by simp)
  refine ⟨⟨⟨hunlimited, hroom⟩, hfits, hexceeds, hreaches⟩, hsame, hresults 1 (by decide),
    ⟨n, hn, hfails, ?_, hagain⟩, ?_⟩
  · rw [hstate]
    exact hcut
  · rw [hoff, hprinted, hempty, String.empty_append]

end Processor

end LS8
