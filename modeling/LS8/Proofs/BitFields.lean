import LS8.Proofs.Bounds
import Mathlib

/-!
# Fields of a byte

A field is the remainder of a quotient.  The byte is divided by two to the position of the field, and
reduced modulo two to its width (`extract_eq_ok`).  A bit is a field of width one.

The mask of a field is what is left of sixteen ones after a shift to the right.  For no bits, and for more
than sixteen, there is no such shift.  `extract?` is the extraction of a machine that checks the amounts
of its shifts, and it has no result for these widths (`extract?_eq_none_iff`).  A field never gets there:
such widths are refused before, with all other fields that go past the end of the byte.  What is left to
extract has a position in the byte, so that the check of `extract` has nothing to refuse.

Fields that follow one another and fill the byte are its digits in a system of mixed bases.  Their widths
are a composition of eight, and with the weights of their positions they add up to the byte
(`sum_quotients`).
-/

namespace LS8.Opcode

variable {o : Opcode} {span : BitSpan} {index lsb count n : Nat}

/-! ## Extracting -/

/-- A position in the byte is an amount by which a byte can be shifted. -/
theorem shiftAmount_eq (h : lsb < width) : lsb.toUInt8.toNat % 8 = lsb := by
  have hlsb : lsb < 8 := h
  rw [Nat.toUInt8, UInt8.toNat_ofNat']
  omega

theorem toNat_mask (h : n ≤ width) : (mask n).toNat = 2 ^ n - 1 := by
  have hall : ∀ n ≤ width, (mask n).toNat = 2 ^ n - 1 := by decide
  exact hall n h

/-- The byte, shifted and masked, is the remainder of a quotient. -/
theorem extract_eq_ok (o : Opcode) (span : BitSpan) (hlsb : lsb < width) (hcount : count ≤ width) :
    ∃ v, o.extract span lsb count = .ok v ∧ v.toNat = o.byte.toNat / 2 ^ lsb % 2 ^ count := by
  refine ⟨_, by rw [extract, if_pos hlsb], ?_⟩
  rw [UInt8.toNat_and, UInt8.toNat_shiftRight, shiftAmount_eq hlsb, toNat_mask hcount,
    Nat.and_two_pow_sub_one_eq_mod, Nat.shiftRight_eq_div_pow]

/-! ## Checked shifts -/

/-- A word shifted to the right, if the amount is below the width of the word. -/
def shiftRight? {w : Nat} (word : BitVec w) (amount : Nat) : Option (BitVec w) :=
  if amount < w then some (word >>> amount) else none

/-- The mask of `n` bits: the lower byte of what a checked shift leaves of sixteen ones.  More than
sixteen cannot be left. -/
def mask? (n : Nat) : Option UInt8 :=
  if n ≤ 16 then
    (shiftRight? (BitVec.allOnes 16) (16 - n)).map fun ones => ⟨ones.setWidth 8⟩
  else
    none

/-- What `extract` gives, if no shift that it takes is out of range. -/
def extract? (o : Opcode) (span : BitSpan) (lsb count : Nat) : Option (Except OpcodeError UInt8) :=
  if lsb < width then do
    let ones ← mask? count
    let bits ← shiftRight? o.byte.toBitVec lsb
    return .ok (⟨bits⟩ &&& ones)
  else
    some (.error (.indexOutOfBounds span lsb width))

theorem mask?_eq (n : Nat) : mask? n = if 1 ≤ n ∧ n ≤ 16 then some (mask n) else none := by
  by_cases h : n ≤ 16
  · have hall : ∀ n ≤ 16, mask? n = if 1 ≤ n ∧ n ≤ 16 then some (mask n) else none := by decide
    exact hall n h
  · rw [mask?, if_neg h, if_neg fun hboth => h hboth.2]

theorem shiftRight?_byte (h : lsb < width) :
    shiftRight? o.byte.toBitVec lsb = some (o.byte >>> lsb.toUInt8).toBitVec := by
  have hshift : (o.byte >>> lsb.toUInt8).toBitVec = o.byte.toBitVec >>> lsb := by
    apply BitVec.eq_of_toNat_eq
    rw [UInt8.toNat_toBitVec, UInt8.toNat_shiftRight, shiftAmount_eq h, BitVec.toNat_ushiftRight,
      UInt8.toNat_toBitVec]
  rw [shiftRight?, if_pos (show lsb < 8 from h), hshift]

/-- Checking the shifts makes no difference for masks of one to sixteen bits. -/
theorem extract?_eq (h : 1 ≤ count ∧ count ≤ 16) :
    o.extract? span lsb count = some (o.extract span lsb count) := by
  rw [extract?, extract]
  split_ifs with hlsb
  · rw [mask?_eq, if_pos h, shiftRight?_byte hlsb]
    rfl
  · rfl

/-- Only a width of zero or of more than sixteen brings a shift out of range. -/
theorem extract?_eq_none_iff :
    o.extract? span lsb count = none ↔ lsb < width ∧ (count = 0 ∨ 16 < count) := by
  by_cases h : 1 ≤ count ∧ count ≤ 16
  · rw [extract?_eq h]
    simp only [reduceCtorEq, false_iff]
    omega
  · have hcount : count = 0 ∨ 16 < count := by omega
    rw [extract?, mask?_eq, if_neg h]
    by_cases hlsb : lsb < width <;> simp [hlsb, hcount]

/-! ## Fields and bits -/

/-- A field that has bits and fits into the byte is extracted, and the shifts are in range. -/
theorem field_eq_ok (o : Opcode) (h : 1 ≤ count ∧ lsb + count ≤ width) :
    ∃ v, o.field lsb count = .ok v ∧ v.toNat = o.byte.toNat / 2 ^ lsb % 2 ^ count ∧
      o.extract? .field lsb count = some (.ok v) := by
  obtain ⟨hpos, hfits⟩ := h
  have hlsb : lsb < width := by omega
  have hcount : count ≤ width := by omega
  have hsixteen : count ≤ 16 := hcount.trans (by decide)
  obtain ⟨v, hextract, hv⟩ := extract_eq_ok o .field hlsb hcount
  refine ⟨v, ?_, hv, ?_⟩
  · rw [field, if_neg (by omega), hextract]
  · rw [extract?_eq ⟨hpos, hsixteen⟩, hextract]

/-- A field is given exactly if it has bits and fits into the byte, and then it is that remainder. -/
theorem field_eq_ok_iff {v : UInt8} :
    o.field lsb count = .ok v ↔
      (1 ≤ count ∧ lsb + count ≤ width) ∧ v.toNat = o.byte.toNat / 2 ^ lsb % 2 ^ count := by
  by_cases h : 1 ≤ count ∧ lsb + count ≤ width
  · obtain ⟨given, hfield, hgiven, -⟩ := field_eq_ok o h
    rw [hfield, Except.ok.injEq, ← UInt8.toNat_inj, hgiven, eq_comm]
    simp [h]
  · have hrefused : o.field lsb count = .error (.indexOutOfBounds .field (lsb + count) (width + 1)) :=
      field_eq_error_iff.mpr ⟨by omega, rfl⟩
    simp [hrefused, h]

theorem bit_eq_ok (o : Opcode) (h : index < width) : o.bit index = .ok (o.byte.toNat.testBit index) := by
  obtain ⟨v, hextract, hv⟩ := extract_eq_ok o .bit h (show 1 ≤ width by decide)
  have hbit : (v == 1) = o.byte.toNat.testBit index := by
    rw [pow_one] at hv
    rw [Nat.testBit_eq_decide_div_mod_eq, ← hv]
    exact decide_eq_decide.mpr UInt8.toNat_inj.symm
  rw [bit, hextract, Except.map, hbit]

/-- A bit is the field of width one at its position. -/
theorem bit_eq_ok_iff {b : Bool} : o.bit index = .ok b ↔ o.field index 1 = .ok b.toUInt8 := by
  have hvalue (c : Bool) : b.toUInt8.toNat = c.toNat ↔ b = c := by cases b <;> cases c <;> decide
  rw [field_eq_ok_iff, pow_one, ← Nat.toNat_testBit, hvalue]
  by_cases h : index < width
  · rw [bit_eq_ok o h, Except.ok.injEq, eq_comm]
    exact (and_iff_right ⟨le_refl 1, h⟩).symm
  · have hpast : ¬ index + 1 ≤ width := h
    simp [bit, extract, Except.map, h, hpast]

/-! ## Fields side by side -/

/-- The digits of a number in a system of mixed bases, with their weights, add up to the number. -/
theorem sum_quotients {v : Nat} (c : Composition n) (h : v < 2 ^ n) :
    ∑ k : Fin c.length, v / 2 ^ c.sizeUpTo k % 2 ^ c.blocksFun k * 2 ^ c.sizeUpTo k = v := by
  have hmono : Monotone fun i => v % 2 ^ c.sizeUpTo i := by
    intro i j hij
    have hdvd : 2 ^ c.sizeUpTo i ∣ 2 ^ c.sizeUpTo j := pow_dvd_pow 2 (c.monotone_sizeUpTo hij)
    calc v % 2 ^ c.sizeUpTo i = v % 2 ^ c.sizeUpTo j % 2 ^ c.sizeUpTo i :=
          (Nat.mod_mod_of_dvd v hdvd).symm
      _ ≤ v % 2 ^ c.sizeUpTo j := Nat.mod_le _ _
  -- A digit with its weight is what the remainder gains at its position.
  have hdigit (k : Fin c.length) :
      v / 2 ^ c.sizeUpTo k % 2 ^ c.blocksFun k * 2 ^ c.sizeUpTo k =
        v % 2 ^ c.sizeUpTo (k + 1) - v % 2 ^ c.sizeUpTo k := by
    rw [c.sizeUpTo_succ', pow_add, Nat.mod_mul, Nat.add_sub_cancel_left, Nat.mul_comm]
  calc ∑ k : Fin c.length, v / 2 ^ c.sizeUpTo k % 2 ^ c.blocksFun k * 2 ^ c.sizeUpTo k
      = ∑ k : Fin c.length, (v % 2 ^ c.sizeUpTo (k + 1) - v % 2 ^ c.sizeUpTo k) :=
        Finset.sum_congr rfl fun k _ => hdigit k
    _ = ∑ i ∈ Finset.range c.length, (v % 2 ^ c.sizeUpTo (i + 1) - v % 2 ^ c.sizeUpTo i) :=
        (Finset.sum_range fun i => v % 2 ^ c.sizeUpTo (i + 1) - v % 2 ^ c.sizeUpTo i).symm
    _ = v % 2 ^ c.sizeUpTo c.length - v % 2 ^ c.sizeUpTo 0 := Finset.sum_range_tsub hmono _
    _ = v := by
        rw [c.sizeUpTo_length, c.sizeUpTo_zero, pow_zero, Nat.mod_one, Nat.sub_zero,
          Nat.mod_eq_of_lt h]

/-- Where the widths fill the byte, every field is given. -/
theorem exists_fields (o : Opcode) (widths : Composition width) :
    ∃ values : Fin widths.length → UInt8,
      (∀ k : Fin widths.length, o.field (widths.sizeUpTo k) (widths.blocksFun k) = .ok (values k)) ∧
      ∑ k : Fin widths.length, (values k).toNat * 2 ^ widths.sizeUpTo k = o.byte.toNat := by
  have hfits (k : Fin widths.length) :
      1 ≤ widths.blocksFun k ∧ widths.sizeUpTo k + widths.blocksFun k ≤ width :=
    ⟨widths.one_le_blocksFun k, by rw [← widths.sizeUpTo_succ']; exact widths.sizeUpTo_le _⟩
  choose values hvalues hquotient _ using fun k => field_eq_ok o (hfits k)
  refine ⟨values, hvalues, ?_⟩
  simp only [hquotient]
  exact sum_quotients widths o.byte.toNat_lt

/-- **Fields are the digits of the byte.**  A field is given exactly if it has bits and fits into the byte.
It is then the remainder, modulo two to its width, of the byte divided by two to its position, and the
extraction with checked shifts gives it as well.  That extraction has no result where the width needs a
shift out of range, which a field never does.  Every field that is not given is refused in the same words,
with the position behind it.  A bit is given exactly if its index is below eight, and it is the field of
width one.  Whatever the widths are of fields that follow one another from bit 0 on and fill the byte, they
are all given, and with the weights of their positions they add up to the byte. -/
theorem fields_are_digits (o : Opcode) :
    (∀ lsb count, (∃ v, o.field lsb count = .ok v) ↔ 1 ≤ count ∧ lsb + count ≤ width) ∧
    (∀ lsb count v, o.field lsb count = .ok v →
      v.toNat = o.byte.toNat / 2 ^ lsb % 2 ^ count ∧ o.extract? .field lsb count = some (.ok v)) ∧
    (∀ lsb count, o.extract? .field lsb count = none ↔ lsb < width ∧ (count = 0 ∨ 16 < count)) ∧
    (∀ lsb count e, o.field lsb count = .error e ↔
      ¬ (1 ≤ count ∧ lsb + count ≤ width) ∧
        e = .indexOutOfBounds .field (lsb + count) (width + 1)) ∧
    (∀ index, (∃ b, o.bit index = .ok b) ↔ index < width) ∧
    (∀ index b, o.bit index = .ok b ↔ o.field index 1 = .ok b.toUInt8) ∧
    ∀ widths : Composition width, ∃ values : Fin widths.length → UInt8,
      (∀ k : Fin widths.length, o.field (widths.sizeUpTo k) (widths.blocksFun k) = .ok (values k)) ∧
      ∑ k : Fin widths.length, (values k).toNat * 2 ^ widths.sizeUpTo k = o.byte.toNat := by
  refine ⟨fun lsb count => ?_, fun lsb count v hv => ?_, fun lsb count => extract?_eq_none_iff,
    fun lsb count e => ?_, fun index => ?_, fun index b => bit_eq_ok_iff, exists_fields o⟩
  · constructor
    · rintro ⟨v, hv⟩
      exact (field_eq_ok_iff.mp hv).1
    · intro hfits
      obtain ⟨v, hv, -⟩ := field_eq_ok o hfits
      exact ⟨v, hv⟩
  · obtain ⟨given, hgiven, hquotient, hextract⟩ := field_eq_ok o (field_eq_ok_iff.mp hv).1
    obtain rfl : given = v := Except.ok.inj (hgiven.symm.trans hv)
    exact ⟨hquotient, hextract⟩
  · rw [field_eq_error_iff]
    have hrefused : (count = 0 ∨ width < lsb + count) ↔ ¬ (1 ≤ count ∧ lsb + count ≤ width) := by
      omega
    rw [hrefused]
  · constructor
    · rintro ⟨b, hb⟩
      exact (field_eq_ok_iff.mp (bit_eq_ok_iff.mp hb)).1.2
    · intro hlt
      exact ⟨_, bit_eq_ok o hlt⟩

/-- The four fields of an opcode by its layout, from the lowest one up: the number of the operation, the
two marks, and the count of operands. -/
theorem fields_are_digits_layout :
    let o : Opcode := ⟨0xA7⟩
    let layout : Composition width := ⟨[4, 1, 1, 2], by decide, rfl⟩
    (o.field 6 2 = .ok 2 ∧ (2 : UInt8).toNat = o.byte.toNat / 2 ^ 6 % 2 ^ 2 ∧
      o.extract? .field 6 2 = some (.ok 2)) ∧
    ∃ values : Fin layout.length → UInt8,
      (∀ k : Fin layout.length, o.field (layout.sizeUpTo k) (layout.blocksFun k) = .ok (values k)) ∧
      ∑ k : Fin layout.length, (values k).toNat * 2 ^ layout.sizeUpTo k = 0xA7 := by
  intro o layout
  have htop : o.field 6 2 = .ok 2 := by decide
  obtain ⟨-, hquotient, -, -, -, -, hlayout⟩ := fields_are_digits o
  exact ⟨⟨htop, hquotient 6 2 2 htop⟩, hlayout layout⟩

/-! ## The marks of an opcode -/

theorem setsCounter_eq (o : Opcode) : o.setsCounter = o.byte.toNat.testBit 4 :=
  o.mark_eq (show 4 < 8 by decide)

/-- The count of operands and the two marks are fields of the opcode, which are given for every byte. -/
theorem marks_eq_fields (o : Opcode) :
    o.field 6 2 = .ok o.operandCount.toUInt8 ∧ o.bit 5 = .ok o.usesAlu ∧
      o.bit 4 = .ok o.setsCounter := by
  refine ⟨?_, ?_, ?_⟩
  · have hbyte := o.byte.toNat_lt
    rw [field_eq_ok_iff, operandCount_eq, Nat.toUInt8, UInt8.toNat_ofNat']
    exact ⟨by decide, by omega⟩
  · rw [bit_eq_ok o (by decide), usesAlu_eq]
  · rw [bit_eq_ok o (by decide), setsCounter_eq]

end LS8.Opcode
