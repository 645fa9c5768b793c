import LS8.Memory
import Mathlib

/-!
# What is in memory

A memory of 256 cells *holds* a list of bytes from an address on if the cells there have these bytes,
one after the other.  The address after the last is the first again, so the statement makes sense for
every address and every list.  The stack of the processor wraps around in this way; its program does
not, because the program counter is a natural number.

Writing to a cell that lies far enough ahead does no harm (`Holds.withCell`).
-/

namespace LS8

namespace Memory

/-- The cells from an address on have the bytes of a list. -/
def Holds (m : Memory 256) : UInt8 → List UInt8 → Prop
  | _, [] => True
  | address, b :: data => m.cell address = b ∧ m.Holds (address + 1) data

variable {m : Memory 256} {address other : UInt8} {data : List UInt8}

theorem add_toUInt8_succ (address : UInt8) (k : Nat) :
    address + (k + 1).toUInt8 = address + 1 + k.toUInt8 := by
  simp only [Nat.toUInt8, UInt8.ofNat_add]
  grind

theorem holds_append {first rest : List UInt8} :
    m.Holds address (first ++ rest) ↔
      m.Holds address first ∧ m.Holds (address + first.length.toUInt8) rest := by
  induction first generalizing address with
  | nil => simp [Holds]
  | cons b first ih =>
    rw [List.cons_append, Holds, Holds, ih, List.length_cons, add_toUInt8_succ, and_assoc]

/-- The distance to an address ahead shrinks with every cell. -/
theorem toNat_sub_succ (h : 0 < (other - address).toNat) :
    (other - (address + 1)).toNat + 1 = (other - address).toNat := by
  have hsub : other - (address + 1) = other - address - 1 := by grind
  rw [hsub, UInt8.toNat_sub_of_le]
  · exact Nat.sub_add_cancel h
  · rw [UInt8.le_iff_toNat_le]
    exact h

/-- Bytes stay as they are if only a cell behind the last of them is written. -/
theorem Holds.withCell {v : UInt8} (h : m.Holds address data)
    (hfar : data.length ≤ (other - address).toNat) : (m.withCell other v).Holds address data := by
  induction data generalizing address with
  | nil => trivial
  | cons b data ih =>
    obtain ⟨hcell, hrest⟩ := h
    rw [List.length_cons] at hfar
    have hdistance : (other - (address + 1)).toNat + 1 = (other - address).toNat :=
      toNat_sub_succ (by omega)
    have hne : address ≠ other := by
      rintro rfl
      simp at hfar
    exact ⟨(cell_withCell_of_ne hne).trans hcell, ih hrest (by omega)⟩

theorem holds_iff_cell :
    m.Holds address data ↔
      ∀ k, (h : k < data.length) → m.cell (address + k.toUInt8) = data[k] := by
  induction data generalizing address with
  | nil => simp [Holds]
  | cons b data ih =>
    rw [Holds, ih]
    constructor
    · rintro ⟨hcell, hrest⟩ k hk
      cases k with
      | zero => simpa using hcell
      | succ k =>
        rw [add_toUInt8_succ]
        exact hrest k (Nat.lt_of_succ_lt_succ hk)
    · intro h
      refine ⟨by simpa using h 0 (Nat.succ_pos _), fun k hk => ?_⟩
      rw [← add_toUInt8_succ]
      exact h (k + 1) (Nat.succ_lt_succ hk)

/-- A program that fits is in memory after it has been copied there. -/
theorem holds_copy_zero (h : data.length ≤ 256) : (m.copy 0 data).Holds 0 data := by
  rw [holds_iff_cell]
  intro k hk
  have hlt : k < 256 := Nat.lt_of_lt_of_le hk h
  have haddress : (0 + k.toUInt8).toNat = k := by simpa using Nat.mod_eq_of_lt hlt
  simp only [cell, haddress, getElem_copy, Nat.zero_le, if_true, Nat.sub_zero]
  rw [List.getD_eq_getElem _ _ hk]

theorem read_eq_ok {n : Nat} (h : n < 256) : m.read n = .ok (m.cell n.toUInt8) := by
  have haddress : n.toUInt8.toNat = n := by simpa using Nat.mod_eq_of_lt h
  simp [read, cell, haddress, h]

theorem lt_of_read_eq_ok {n : Nat} {b : UInt8} (h : m.read n = .ok b) : n < 256 := by
  by_contra hn
  simp [read, hn] at h

theorem le_of_read_eq_error {n : Nat} {e : MemoryError} (h : m.read n = .error e) : 256 ≤ n := by
  by_contra hn
  rw [read_eq_ok (Nat.lt_of_not_le hn)] at h
  cases h

/-- What is read at an address depends on the cell there only. -/
theorem read_congr {m' : Memory 256} {n : Nat} (h : m'.cell n.toUInt8 = m.cell n.toUInt8) :
    m'.read n = m.read n := by
  by_cases hn : n < 256
  · rw [read_eq_ok hn, read_eq_ok hn, h]
  · simp [read, hn]

end Memory

end LS8
