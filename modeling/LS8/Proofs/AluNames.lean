import LS8.Alu
import Mathlib

/-!
# The names of arithmetic operations

An operation goes by its mnemonic, in letters of either case.  The comparison is made in small letters, of
both texts.  Mnemonics are written in capitals, so it comes to the same to put the name into capitals and
to compare the result with the mnemonic as it stands (`hasName_iff`).  Only ASCII letters are put into
either case.  A letter outside of ASCII whose capital is one of theirs is no substitute for it.

No two operations share a mnemonic, so at most one of them goes by a given name.  A search finds it in any
list that holds all the operations, wherever it stands there (`find?_hasName_eq_some_iff`), and `ofName` is
such a search.
-/

namespace LS8

/-- A search finds what it looks for, wherever that stands, if there is only one of it. -/
theorem find?_eq_some_iff_of_unique {α : Type} {p : α → Bool} {items : List α} {a : α}
    (hmem : a ∈ items) (hunique : ∀ b, p b → p a → b = a) : items.find? p = some a ↔ p a := by
  constructor
  · exact List.find?_some
  · intro ha
    cases hfound : items.find? p with
    | none => exact absurd ha (List.find?_eq_none.mp hfound a hmem)
    | some b => rw [hunique b (List.find?_some hfound) ha]

namespace AluOperation

variable {op other : AluOperation} {name : String} {order : List AluOperation}

/-! ## Mnemonics -/

theorem map_toUpper_mnemonic (op : AluOperation) :
    op.mnemonic.toList.map Char.toUpper = op.mnemonic.toList := by
  have hall : ∀ op ∈ all, op.mnemonic.toList.map Char.toUpper = op.mnemonic.toList := by decide
  exact hall op op.mem_all

/-- No two operations share a mnemonic. -/
theorem mnemonic_inj : op.mnemonic = other.mnemonic ↔ op = other := by
  have hall : ∀ op ∈ all, ∀ other ∈ all, op.mnemonic = other.mnemonic → op = other := by decide
  exact ⟨hall op op.mem_all other other.mem_all, congrArg mnemonic⟩

/-! ## Letters of either case -/

/-- Texts are the same in small letters exactly if they are the same in capitals. -/
theorem map_toLower_eq_iff {text text' : List Char} :
    text.map Char.toLower = text'.map Char.toLower ↔
      text.map Char.toUpper = text'.map Char.toUpper := by
  constructor
  · intro h
    simpa [Function.comp_def] using congrArg (List.map Char.toUpper) h
  · intro h
    simpa [Function.comp_def] using congrArg (List.map Char.toLower) h

/-- An operation goes by a name if the name, in capitals, is its mnemonic. -/
theorem hasName_iff : op.hasName name ↔ name.toUpper = op.mnemonic := by
  rw [hasName, beq_iff_eq, map_toLower_eq_iff, map_toUpper_mnemonic, eq_comm, String.toUpper,
    ← String.toList_inj, String.toList_map]

/-! ## Searching -/

theorem eq_of_hasName (h : op.hasName name) (h' : other.hasName name) : op = other :=
  mnemonic_inj.mp ((hasName_iff.mp h).symm.trans (hasName_iff.mp h'))

/-- A search through all the operations finds the one that goes by the name. -/
theorem find?_hasName_eq_some_iff (h : all ⊆ order) :
    order.find? (·.hasName name) = some op ↔ op.hasName name :=
  find?_eq_some_iff_of_unique (h op.mem_all) fun _ => eq_of_hasName

/-- The order of the search does not matter. -/
theorem find?_hasName_of_subset (h : all ⊆ order) :
    order.find? (·.hasName name) = all.find? (·.hasName name) := by
  ext op
  rw [find?_hasName_eq_some_iff h, find?_hasName_eq_some_iff (List.Subset.refl all)]

theorem ofName_eq_ok_iff : ofName name = .ok op ↔ op.hasName name := by
  rw [← find?_hasName_eq_some_iff (List.Subset.refl all), ofName]
  cases all.find? (·.hasName name) <;> simp

theorem ofName_eq_error_iff {e : AluError} :
    ofName name = .error e ↔
      (∀ op : AluOperation, ¬ op.hasName name) ∧ e = .unsupportedOperation name := by
  rw [ofName]
  cases hfound : all.find? (·.hasName name) with
  | none =>
    have hnone (op : AluOperation) : ¬ op.hasName name :=
      List.find?_eq_none.mp hfound op op.mem_all
    simp [hnone, eq_comm]
  | some op =>
    have hname := List.find?_some hfound
    simp only [reduceCtorEq, false_iff, not_and]
    exact fun hnone => absurd hname (hnone op)

/-- **An operation is named by its mnemonic, in letters of either case, and by nothing else.**  A name is
read as an operation exactly if putting its letters from `a` to `z` into capitals, and nothing else, gives
the mnemonic.  No two operations of the list go by the same name, so all the orders in which they can be
searched give the same answer.  The mnemonic itself is read back.  Every name that is no mnemonic in
capitals is refused, and the refusal repeats it as it was. -/
theorem named_exactly_by_mnemonic (name : String) :
    (∀ op, ofName name = .ok op ↔ name.toUpper = op.mnemonic) ∧
    (all.Pairwise fun op other => ¬ (op.hasName name ∧ other.hasName name)) ∧
    (∀ order, all ⊆ order → order.find? (·.hasName name) = all.find? (·.hasName name)) ∧
    (∀ op : AluOperation, ofName op.mnemonic = .ok op) ∧
    ∀ e, ofName name = .error e ↔
      (∀ op : AluOperation, name.toUpper ≠ op.mnemonic) ∧ e = .unsupportedOperation name := by
  refine ⟨fun op => ofName_eq_ok_iff.trans hasName_iff, ?_,
    fun order => find?_hasName_of_subset, ?_, ?_⟩
  · exact nodup_all.imp fun hne hboth => hne (eq_of_hasName hboth.1 hboth.2)
  · intro op
    rw [ofName_eq_ok_iff, hasName, beq_self_eq_true]
  · intro e
    simp only [ofName_eq_error_iff, hasName_iff, ne_eq]

/-- A name in letters of both cases, looked for from the last operation to the first. -/
theorem named_exactly_by_mnemonic_backwards :
    all ⊆ all.reverse ∧ "sHl".toUpper = "SHL" ∧ ofName "sHl" = .ok .shl ∧
      all.reverse.find? (·.hasName "sHl") = some .shl := by
  have hsubset : all ⊆ all.reverse := by decide
  have hupper : "sHl".toUpper = "SHL" := by decide +kernel
  have hfirst : all.find? (·.hasName "sHl") = some .shl := by decide
  obtain ⟨hok, -, horder, -⟩ := named_exactly_by_mnemonic "sHl"
  exact ⟨hsubset, hupper, (hok .shl).mpr hupper, (horder _ hsubset).trans hfirst⟩

/-- The long s has the capital of an ordinary one and does not stand for it. -/
example : ofName "ſhl" = .error (.unsupportedOperation "ſhl") := by decide

end AluOperation

end LS8
