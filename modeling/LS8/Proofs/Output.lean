import LS8.Proofs.Frame
import LS8.Proofs.ListingSyntax
import LS8.Proofs.Trail

/-!
# What a program prints

A print writes one value on a line of its own, in decimal, and nothing else is ever written.  So with a
sink that takes everything the output after a history is one line for each print that its steps carried
out, in order (`Reaches.sink_eq`).  The lines can be told apart again, and each can be read, so the
output determines the values printed (`lines_printedText`).

Everything printed is ASCII, and so its length in bytes is its number of characters.
-/

namespace LS8

/-! ## Decimal numerals -/

namespace Numeral

variable {n bound : Nat} {c : Char}

theorem isDigit_of_mem_decimal (h : c ∈ (decimal n).toList) : c.isDigit := by
  rw [decimal, Nat.toList_repr] at h
  exact Nat.isDigit_of_mem_toDigits (by decide) (by decide) h

theorem notMem_decimal (h : c.isDigit = false) (n : Nat) : c ∉ (decimal n).toList := by
  intro hmem
  rw [isDigit_of_mem_decimal hmem] at h
  cases h

theorem decimal_ne_nil (n : Nat) : (decimal n).toList ≠ [] := by
  rw [decimal, Nat.toList_repr]
  exact Nat.toDigits_ne_nil

/-- A number written in decimal is read back. -/
theorem unsigned?_decimal (h : n ≤ bound) : unsigned? 10 bound (decimal n).toList = some n := by
  have hplus : dropPlus (decimal n).toList = (decimal n).toList := by
    unfold dropPlus
    split
    · next digits hdigits =>
      have hdigit : '+'.isDigit := isDigit_of_mem_decimal (n := n) (hdigits ▸ List.mem_cons_self ..)
      cases hdigit
    · rfl
  have hdigits : (decimal n).toList.all (isDigitOf 10) := by
    rw [List.all_eq_true]
    intro c hc
    obtain ⟨hzero, hnine⟩ := Char.isDigit_iff_toNat.mp (isDigit_of_mem_decimal hc)
    exact Bool.and_eq_true_iff.mpr ⟨decide_eq_true hzero, decide_eq_true (Nat.lt_succ_of_le hnine)⟩
  have hvalue : Nat.ofDigitChars 10 (decimal n).toList 0 = n := by
    rw [decimal, Nat.toList_repr, Nat.ofDigitChars_toDigits (by decide) (by decide)]
  rw [unsigned?, hplus, if_pos ⟨decimal_ne_nil n, hdigits⟩, hvalue, if_pos h]

end Numeral

/-! ## Characters of one byte -/

namespace Text

theorem utf8Size_of_ascii {c : Char} (h : c.toNat < 128) : c.utf8Size = 1 := by
  have hval : c.val ≤ 127 := UInt32.le_iff_toNat_le.mpr (Nat.le_of_lt_succ h)
  exact if_pos hval

theorem utf8ByteSize_of_ascii {text : String} (h : ∀ c ∈ text.toList, c.toNat < 128) :
    text.utf8ByteSize = text.length := by
  suffices hlist : ∀ l : List Char, (∀ c ∈ l, c.toNat < 128) → String.utf8Len l = l.length by
    rw [← String.length_toList, ← hlist _ h, ← String.utf8ByteSize_ofList, String.ofList_toList]
  intro l hl
  induction l with
  | nil => rfl
  | cons c l ih =>
    obtain ⟨hc, hrest⟩ := List.forall_mem_cons.mp hl
    rw [String.utf8Len, ih hrest, utf8Size_of_ascii hc, List.length_cons]

end Text

namespace Processor

variable {p q : Processor}

/-! ## Lines -/

/-- The lines that show some values. -/
def printedText (values : List UInt8) : String := String.join (values.map printedLine)

theorem printedText_append (first rest : List UInt8) :
    printedText (first ++ rest) = printedText first ++ printedText rest := by
  rw [printedText, List.map_append, String.join_append]
  rfl

theorem toList_printedLine (v : UInt8) :
    (printedLine v).toList = (Numeral.decimal v.toNat).toList ++ ['\n'] := by
  rw [printedLine, String.toList_append]
  rfl

theorem toList_printedText_cons (v : UInt8) (values : List UInt8) :
    (printedText (v :: values)).toList =
      (Numeral.decimal v.toNat).toList ++ '\n' :: (printedText values).toList := by
  rw [printedText, List.map_cons, String.join_cons, String.toList_append, toList_printedLine,
    List.append_assoc]
  rfl

/-- The values can be read from the lines. -/
theorem lines_printedText (values : List UInt8) :
    (Text.lines (printedText values).toList).map (Numeral.unsigned? 10 255) =
      values.map fun v => some v.toNat := by
  induction values with
  | nil => rfl
  | cons v values ih =>
    have hv : v.toNat ≤ 255 := Nat.le_of_lt_succ v.toNat_lt
    have hreturn : Text.dropReturn (Numeral.decimal v.toNat).toList = (Numeral.decimal v.toNat).toList := by
      refine if_neg fun hlast => ?_
      exact absurd (Numeral.isDigit_of_mem_decimal (List.mem_of_getLast? hlast)) (by decide)
    rw [toList_printedText_cons, Text.lines_append (Numeral.notMem_decimal (by decide) _), hreturn,
      List.map_cons, List.map_cons, ih, Numeral.unsigned?_decimal hv]

/-- Each of their characters is one byte. -/
theorem utf8ByteSize_printedText (values : List UInt8) :
    (printedText values).utf8ByteSize = (printedText values).length := by
  refine Text.utf8ByteSize_of_ascii fun c hc => ?_
  induction values with
  | nil => cases hc
  | cons v values ih =>
    rw [toList_printedText_cons, List.mem_append, List.mem_cons] at hc
    rcases hc with hdigit | rfl | hrest
    · have hnine := (Char.isDigit_iff_toNat.mp (Numeral.isDigit_of_mem_decimal hdigit)).2
      exact hnine.trans_lt (by decide)
    · decide
    · exact ih hrest

/-! ## Steps -/

/-- The value that the next step prints, if it carries out a print. -/
def printing? (p : Processor) : Option UInt8 :=
  p.performed?.bind fun
    | .print reg => some (p.value reg)
    | _ => none

/-- A print in front of a sink that takes everything does not fail. -/
theorem Failure.sink_eq {i : Instruction} {e : Fault} {log : List Event} (h : Failure p i e q log)
    (hunlimited : p.sink.capacity = none) : q.sink = p.sink := by
  cases h with
  | refused _ hfull => simp [Sink.accepts, hunlimited] at hfull
  | _ => rfl

/-- A sink that takes everything has after a step what it had before, and a line if a value was
printed. -/
theorem sink_step_of_unlimited (h : p.sink.capacity = none) :
    (step p).state.sink =
      { p.sink with written := p.sink.written ++ printedText p.printing?.toList } := by
  cases hperformed : p.performed? with
  | none =>
    have hsame : (step p).state.sink = p.sink := by
      rcases performed?_eq_none_iff.mp hperformed with hhalted | ⟨e, he⟩
      · rw [step_of_halted hhalted]
      · rcases step_error_cases he with ⟨hstate, -⟩ | ⟨i, log, -, hfail⟩
        · rw [hstate]
        · exact hfail.sink_eq h
    simp [printing?, hperformed, hsame, printedText]
  | some i =>
    have htext : printedText p.printing?.toList = p.prints i := by
      rw [printing?, hperformed, Option.bind_some]
      cases i <;> simp [prints, printedText]
    rw [(performed?_eq_some_iff.mp hperformed).touches.output, htext]

/-! ## Histories -/

theorem sink_after_of_unlimited (h : p.sink.capacity = none) (n : Nat) :
    (p.after n).sink = { p.sink with
      written := p.sink.written ++ printedText (((List.range n).map p.after).filterMap printing?) } := by
  induction n with
  | zero => simp [printedText]
  | succ n ih =>
    have hunlimited : (p.after n).sink.capacity = none := by rw [ih, h]
    -- The last step adds at most one value.
    have hlast : [p.after n].filterMap printing? = (p.after n).printing?.toList := by
      cases hprinting : (p.after n).printing? <;> simp [hprinting]
    rw [after_succ', sink_step_of_unlimited hunlimited, ih, List.range_succ, List.map_append,
      List.filterMap_append, printedText_append, String.append_assoc, List.map_singleton, hlast]

theorem sink_advance_of_unlimited (h : p.sink.capacity = none) (n : Nat) :
    (advance n p).state.sink = { p.sink with
      written := p.sink.written ++ printedText ((p.trail n).filterMap printing?) } := by
  obtain ⟨htrail, hstate, -⟩ := advance_trail n p
  rw [hstate, sink_after_of_unlimited h, ← htrail]

theorem sink_perform_of_unlimited {a : Action} {o : Outcome Processor ActionError (Option Status)}
    (h : p.sink.capacity = none) (ho : p.perform a = some o) :
    o.state.sink = { p.sink with
      written := p.sink.written ++ printedText ((a.trail p).filterMap printing?) } := by
  rcases perform_cases ho with ⟨n, htrail, hstate, -⟩ | ⟨program, rfl, hstate, -⟩ | ⟨on, rfl, hstate, -⟩
  · rw [htrail, hstate, sink_advance_of_unlimited h]
  · simp [hstate, load, Transition.on, Action.trail, printedText]
  · simp [hstate, Action.trail, printedText]

/-- After a history, a sink that takes everything has a line for each value printed. -/
theorem Reaches.sink_eq {history : List Action} (h : p.sink.capacity = none)
    (hreaches : p.Reaches history q) : q.sink = { p.sink with
      written := p.sink.written ++ printedText ((p.trailAlong history).filterMap printing?) } := by
  induction hreaches with
  | nil => simp [trailAlong, printedText]
  | @snoc history q a o hbefore hlast ih =>
    have hunlimited : q.sink.capacity = none := by rw [ih, h]
    have htrail : q.trailAlong [a] = a.trail q := by simp [trailAlong, hlast]
    rw [sink_perform_of_unlimited hunlimited hlast, ih, trailAlong_append hbefore, htrail,
      List.filterMap_append, printedText_append, String.append_assoc]

end Processor

end LS8
