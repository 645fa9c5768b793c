import LS8.Transition

/-!
# Memory

A memory of a fixed number of byte cells, addressed from zero.  There are three operations on it.
`read` and `write` reach one cell; `load` copies a stretch of bytes, all of it or nothing.  An
address outside of the memory is an error, and a failing operation leaves every cell as it was.

`load` asks only where the stretch would end.  It names the last address of the stretch when that
end lies past the memory, so an empty stretch that starts past the end names the address before its
start.

`Action` is the three operations as data, and `perform` carries one out; a history of a memory is a
list of actions.

A memory of 256 cells has a cell for every byte, so there `cell` and `withCell` cannot fail.
-/

namespace LS8

/-- Why a memory could not be reached. -/
inductive MemoryError
  | outOfBounds (address size : Nat)
  deriving DecidableEq, Repr

def MemoryError.message : MemoryError → String
  | .outOfBounds address size =>
    "address " ++ Numeral.hex4 address ++ " is out of bounds, must be [0x0000, "
      ++ Numeral.hex4 size ++ ")"

/-- A memory of `size` cells. -/
structure Memory (size : Nat) where
  /-- The contents, address 0 first. -/
  cells : Vector UInt8 size
  deriving DecidableEq, Repr

namespace Memory

variable {size : Nat}

/-- A memory whose cells are all zero. -/
def zero (size : Nat) : Memory size := ⟨Vector.replicate size 0⟩

/-- The size of a memory as text. -/
def summary (_ : Memory size) : String := "RAM[" ++ Numeral.hex4 size ++ " bytes]"

/-! ## Operations -/

/-- The byte at an address. -/
def read (m : Memory size) (address : Nat) : Except MemoryError UInt8 :=
  if h : address < size then .ok m.cells[address] else .error (.outOfBounds address size)

/-- The memory with a new byte at an address. -/
def write (m : Memory size) (address : Nat) (value : UInt8) :
    Except MemoryError (Memory size) :=
  if h : address < size then
    .ok ⟨m.cells.set address value⟩
  else
    .error (.outOfBounds address size)

/-- The memory with the bytes put into the cells from `address` on, as far as there are cells. -/
def copy (m : Memory size) (address : Nat) : List UInt8 → Memory size
  | [] => m
  | b :: data => copy ⟨m.cells.setIfInBounds address b⟩ (address + 1) data

/-- After a copy a cell holds the byte meant for it, and its old contents if there is none. -/
theorem getElem_copy (m : Memory size) (address : Nat) (data : List UInt8) (i : Nat)
    (h : i < size) :
    (m.copy address data).cells[i] =
      if address ≤ i then data.getD (i - address) m.cells[i] else m.cells[i] := by
  induction data generalizing m address with
  | nil => simp [copy]
  | cons b data ih =>
    rw [copy, ih]
    rcases Nat.lt_trichotomy address i with hlt | rfl | hgt
    · rw [if_pos (Nat.succ_le_of_lt hlt), if_pos (Nat.le_of_lt hlt),
        show i - address = (i - (address + 1)) + 1 by omega, List.getD_cons_succ,
        Vector.getElem_setIfInBounds_ne h (by omega)]
    · rw [if_neg (Nat.not_succ_le_self _), if_pos (Nat.le_refl _), Nat.sub_self]
      simp
    · rw [if_neg (by omega), if_neg (by omega), Vector.getElem_setIfInBounds_ne h (by omega)]

/-- Copies bytes into the cells from `address` on, unless they would not all fit. -/
def load (address : Nat) (data : List UInt8) : Transition (Memory size) MemoryError Unit := do
  let stop := address + data.length
  if stop ≤ size then
    Transition.report (.bytesWritten data.length address stop)
    modify (·.copy address data)
  else
    Transition.fail (.outOfBounds (stop - 1) size)

/-! ## Histories -/

/-- An operation on a memory, with its arguments. -/
inductive Action
  | read (address : Nat)
  | write (address : Nat) (value : UInt8)
  | load (address : Nat) (data : List UInt8)
  deriving DecidableEq, Repr

/-- Carries an action out.  Reading gives the byte, the other actions give nothing. -/
def perform : Action → Transition (Memory size) MemoryError (Option UInt8)
  | .read address => do
    let value ← Transition.ofExcept ((← get).read address)
    return some value
  | .write address value => do
    set (← Transition.ofExcept ((← get).write address value))
    return none
  | .load address data => do
    load address data
    return none

/-- The cells in which `after` differs from `before`, with their new contents, in ascending order
of the address. -/
def changes (before after : Memory size) : List (Nat × UInt8) :=
  (before.cells.toList.zip after.cells.toList).zipIdx.filterMap fun ((old, new), address) =>
    if old = new then none else some (address, new)

/-! ## Memories of 256 cells -/

/-- The byte at an address of one byte. -/
def cell (m : Memory 256) (address : UInt8) : UInt8 :=
  have : address.toNat < 256 := address.toNat_lt
  m.cells[address.toNat]

/-- The memory with a new byte at an address of one byte. -/
def withCell (m : Memory 256) (address value : UInt8) : Memory 256 :=
  have : address.toNat < 256 := address.toNat_lt
  ⟨m.cells.set address.toNat value⟩

@[simp] theorem cell_withCell_self (m : Memory 256) (address value : UInt8) :
    (m.withCell address value).cell address = value := by
  simp [cell, withCell]

theorem cell_withCell_of_ne {m : Memory 256} {address other value : UInt8}
    (h : other ≠ address) : (m.withCell address value).cell other = m.cell other := by
  have h' : address.toNat ≠ other.toNat := fun e => h (UInt8.toNat_inj.mp e.symm)
  simp [cell, withCell, Vector.getElem_set_ne, h']

end Memory

end LS8
