import LS8.Memory
import Mathlib

/-!
# The last writer

What a cell of a memory holds is what was stored in it last.  An action on a memory succeeds exactly if
the memory has all the cells that the action reaches for (`Action.Fits`), and one that fails does nothing,
a load of many bytes no less than a write of one.  So the actions of a history that succeed can be told
from their arguments, and with them the byte that a cell holds in the end: the one from the latest action
that stored one there, and zero if none has (`last_writer_wins`).
-/

namespace LS8

/-- What is overwritten over and over is in the end what was written last. -/
theorem foldl_getD {α β : Type} (written? : α → Option β) (l : List α) (b : β) :
    l.foldl (fun b a => (written? a).getD b) b = ((l.filterMap written?).getLast?).getD b := by
  induction l generalizing b with
  | nil => rfl
  | cons a l ih =>
    rw [List.foldl_cons, ih]
    cases ha : written? a with
    | none => rw [List.filterMap_cons_none ha, Option.getD_none]
    | some c => rw [List.filterMap_cons_some ha, List.getLast?_cons, Option.getD_some, Option.getD_some]

namespace Memory

variable {size address : Nat} {value : UInt8} {data : List UInt8} {a : Action}

/-! ## One action -/

/-- A memory of this size has all the cells that the action reaches for. -/
def Action.Fits (size : Nat) : Action → Prop
  | .read address | .write address _ => address < size
  | .load address data => address + data.length ≤ size

instance Action.decidableFits (size : Nat) : (a : Action) → Decidable (a.Fits size)
  | .read address | .write address _ => inferInstanceAs (Decidable (address < size))
  | .load address data => inferInstanceAs (Decidable (address + data.length ≤ size))

/-- The last address that an action reaches for.  For an empty load it is the one before the start. -/
def Action.last : Action → Nat
  | .read address | .write address _ => address
  | .load address data => address + data.length - 1

/-- The byte that an action is to store at an address, if it is to store one there. -/
def Action.stores? (address : Nat) : Action → Option UInt8
  | .read _ => none
  | .write start value => if start = address then some value else none
  | .load start data => if start ≤ address then data[address - start]? else none

/-- The byte that an action stores at an address of a memory of this size, if it succeeds and stores one
there. -/
def Action.leaves? (size address : Nat) (a : Action) : Option UInt8 :=
  if a.Fits size then a.stores? address else none

theorem perform_read (h : address < size) (m : Memory size) :
    perform (.read address) m = ⟨.ok (some m.cells[address]), m, []⟩ := by
  have hread : m.read address = .ok m.cells[address] := dif_pos h
  simp [perform, Transition.bind_apply, hread, Except.map]

theorem perform_write (h : address < size) (value : UInt8) (m : Memory size) :
    perform (.write address value) m = ⟨.ok none, ⟨m.cells.set address value⟩, []⟩ := by
  have hwrite : m.write address value = .ok ⟨m.cells.set address value⟩ := dif_pos h
  simp [perform, Transition.bind_apply, hwrite, Except.map]

theorem perform_load (h : address + data.length ≤ size) (m : Memory size) :
    perform (.load address data) m = ⟨.ok none, m.copy address data,
      [.bytesWritten data.length address (address + data.length)]⟩ := by
  simp [perform, load, Transition.bind_apply, h]

/-- An action for which there is no room fails, names the last address it reaches for, and does
nothing. -/
theorem perform_of_not_fits (h : ¬ a.Fits size) (m : Memory size) :
    perform a m = ⟨.error (.outOfBounds a.last size), m, []⟩ := by
  cases a with
  | read address =>
    have hread : m.read address = .error (.outOfBounds address size) := dif_neg h
    simp [perform, Transition.bind_apply, hread, Action.last, Except.map]
  | write address value =>
    have hwrite : m.write address value = .error (.outOfBounds address size) := dif_neg h
    simp [perform, Transition.bind_apply, hwrite, Action.last]
  | load address data =>
    have hend : ¬ address + data.length ≤ size := h
    simp [perform, load, Transition.bind_apply, hend, Action.last]

/-- An action that fails leaves the memory as it was. -/
theorem state_of_perform_error {m : Memory size} {e : MemoryError}
    (h : (perform a m).result = .error e) : (perform a m).state = m := by
  by_cases hfits : a.Fits size
  · cases a with
    | read address => rw [perform_read hfits]
    | write address value =>
      rw [perform_write hfits] at h
      cases h
    | load address data =>
      rw [perform_load hfits] at h
      cases h
  · rw [perform_of_not_fits hfits]

/-- After a load that fits, all of its bytes can be read. -/
theorem read_of_perform_load (h : address + data.length ≤ size) (m : Memory size) {k : Nat}
    (hk : k < data.length) :
    (perform (.load address data) m).state.read (address + k) = .ok data[k] := by
  have hlt : address + k < size := by omega
  rw [perform_load h, read, dif_pos hlt, getElem_copy, if_pos (Nat.le_add_right ..),
    Nat.add_sub_cancel_left, List.getD_eq_getElem _ _ hk]

/-- After an action a cell holds what the action has left there, and its old contents if that is
nothing. -/
theorem getElem_perform (a : Action) (m : Memory size) {i : Nat} (hi : i < size) :
    (perform a m).state.cells[i] = (a.leaves? size i).getD m.cells[i] := by
  by_cases h : a.Fits size
  · rw [Action.leaves?, if_pos h]
    cases a with
    | read address => rw [perform_read h]; rfl
    | write address value =>
      have hlt : address < size := h
      rw [perform_write hlt, Action.stores?]
      simp only [Vector.getElem_set]
      split_ifs <;> rfl
    | load address data =>
      rw [perform_load h, Action.stores?]
      show (m.copy address data).cells[i] = _
      rw [getElem_copy]
      split_ifs with hle
      · rw [List.getD_eq_getElem?_getD]
      · rfl
  · rw [Action.leaves?, if_neg h, perform_of_not_fits h]
    rfl

/-! ## Histories -/

/-- The memory after a history, in which failed actions are followed by the next ones all the same. -/
def afterAll (m : Memory size) (history : List Action) : Memory size :=
  history.foldl (fun m a => (perform a m).state) m

/-- The byte stored at an address by the latest of the actions that succeed and store one there; zero if
there is none. -/
def latest (size : Nat) (history : List Action) (address : Nat) : UInt8 :=
  ((history.filterMap (Action.leaves? size address)).getLast?).getD 0

theorem getElem_afterAll (m : Memory size) (history : List Action) {i : Nat} (hi : i < size) :
    (m.afterAll history).cells[i] =
      ((history.filterMap (Action.leaves? size i)).getLast?).getD m.cells[i] := by
  rw [← foldl_getD, afterAll]
  exact (List.foldl_hom (fun m : Memory size => m.cells[i])
    fun m a => (getElem_perform a m hi).symm).symm

/-- **The last writer wins, and what fails leaves nothing behind.**  Whatever was done to a new memory, a
read succeeds exactly inside it, and gives the byte of the latest action that succeeded and stored one at
that address, or zero if there is none.  A write succeeds exactly inside the memory.  A load succeeds
exactly if it ends inside; one that does not names the address before its end, which is no address of the
memory.  Nothing that fails changes a cell, and a load stores all of its bytes or none. -/
theorem last_writer_wins (size : Nat) (history : List Action) :
    let m := (zero size).afterAll history
    (∀ address, (perform (.read address) m).result =
      if address < size then .ok (some (latest size history address))
      else .error (.outOfBounds address size)) ∧
    (∀ address value, (perform (.write address value) m).result =
      if address < size then .ok none else .error (.outOfBounds address size)) ∧
    (∀ address data,
      let result := (perform (.load address data) m).result
      (address + data.length ≤ size ∧ result = .ok none) ∨
        ∃ last, last + 1 = address + data.length ∧ size ≤ last ∧
          result = .error (.outOfBounds last size)) ∧
    (∀ a e, (perform a m).result = .error e → (perform a m).state = m) ∧
    ∀ address data,
      let loaded := (perform (.load address data) m).state
      loaded = m ∨ ∀ k, (h : k < data.length) → loaded.read (address + k) = .ok data[k] := by
  intro m
  refine ⟨fun address => ?_, fun address value => ?_, fun address data => ?_,
    fun a e he => state_of_perform_error he, fun address data => ?_⟩
  · split_ifs with h
    · have hcell := getElem_afterAll (zero size) history h
      have hzero : (zero size).cells[address] = 0 := by simp [zero]
      rw [perform_read h, hcell, hzero]
      rfl
    · rw [perform_of_not_fits (a := .read address) h]
      rfl
  · split_ifs with h
    · rw [perform_write h]
    · rw [perform_of_not_fits (a := .write address value) h]
      rfl
  · by_cases h : address + data.length ≤ size
    · exact .inl ⟨h, by rw [perform_load h]⟩
    · refine .inr ⟨address + data.length - 1, by omega, by omega, ?_⟩
      rw [perform_of_not_fits (a := .load address data) h]
      rfl
  · by_cases h : address + data.length ≤ size
    · exact .inr fun k hk => read_of_perform_load h m hk
    · exact .inl (by rw [perform_of_not_fits (a := .load address data) h])

/-- A load that ends one past the memory stores nothing at all. -/
example : latest 4 [.write 1 7, .load 2 [8, 9, 10], .write 3 5] 2 = 0 := by decide

end Memory

end LS8
