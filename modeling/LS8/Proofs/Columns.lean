import LS8.Proofs.LogLines
import LS8.Proofs.Reachable

/-!
# Snapshots in columns

The line of a snapshot holds twelve numbers in hexadecimal.  Eleven of them are bytes and take two digits
each.  The program counter is no byte, so how many digits it takes depends on where it stands, and with it
the columns of everything behind it.  `inColumns_text` finds all numbers of a snapshot in its line, for
any counter.

In a reachable processor the counter is at most 256.  Within memory it takes two digits, and the line has
46 characters.  One past the end it takes three, and the line has one character more
(`trace_in_columns_iff`).
-/

namespace LS8

/-! ## Numbers in columns -/

namespace Numeral

/-- A number fills the least width exactly if it does not have more digits than that. -/
theorem length_hex_eq_iff {width n : Nat} (h : 0 < width) :
    (hex width n).length = width ↔ n < 16 ^ width := by
  rw [hex, String.length_ofList, List.length_leftpad, List.length_map, max_eq_left_iff,
    Nat.length_toDigits_le_iff (by decide) h]

/-- The number that is written in so many columns of a line, from the given one on, if each of them holds
an upper-case hexadecimal digit. -/
def inColumns? (width : Nat) (line : List Char) (column : Nat) : Option Nat :=
  let digits := (line.drop column).take width
  if digits.length = width then hexDigits? digits else none

/-- What stands in front moves a number to the right. -/
theorem inColumns?_append (width : Nat) (front rest : List Char) (column : Nat) :
    inColumns? width (front ++ rest) (front.length + column) = inColumns? width rest column := by
  simp only [inColumns?, List.drop_length_add_append]

theorem inColumns?_hex (least n : Nat) (rest : List Char) :
    inColumns? (hex least n).length ((hex least n).toList ++ rest) 0 = some n := by
  have hdigits : ((hex least n).toList ++ rest).take (hex least n).length = (hex least n).toList :=
    List.take_left' String.length_toList
  simp only [inColumns?, List.drop_zero, hdigits, String.length_toList, if_true, hexDigits?_hex]

end Numeral

namespace Snapshot

open Numeral

variable {s : Snapshot} {width : Nat} {line : List Char}

theorem length_hex_byte (b : UInt8) : (hex 2 b.toNat).length = 2 :=
  (length_hex_eq_iff (by decide)).mpr b.toNat_lt

theorem toList_columns_cons (b : UInt8) (bytes : List UInt8) :
    (columns (b :: bytes)).toList =
      ' ' :: (hex 2 b.toNat).toList ++ (columns bytes).toList := by
  simp [columns, String.join_cons]

theorem length_columns (bytes : List UInt8) : (columns bytes).toList.length = 3 * bytes.length := by
  induction bytes with
  | nil => rfl
  | cons b bytes ih =>
    have hbyte : (hex 2 b.toNat).toList.length = 2 := length_hex_byte b
    rw [toList_columns_cons, List.length_append, List.length_cons, hbyte, ih, List.length_cons]
    omega

/-- Bytes stand three columns apart. -/
theorem inColumns?_columns {bytes : List UInt8} {k : Nat} (h : k < bytes.length) (rest : List Char) :
    inColumns? 2 ((columns bytes).toList ++ rest) (3 * k + 1) = some bytes[k].toNat := by
  induction bytes generalizing k with
  | nil => exact absurd h (Nat.not_lt_zero k)
  | cons b bytes ih =>
    have hbyte : (hex 2 b.toNat).length = 2 := length_hex_byte b
    rw [toList_columns_cons]
    cases k with
    | zero =>
      have hhere := inColumns?_hex 2 b.toNat ((columns bytes).toList ++ rest)
      rw [hbyte, ← inColumns?_append 2 [' ']] at hhere
      simpa using hhere
    | succ k =>
      have hplace : 3 * (k + 1) + 1 = (' ' :: (hex 2 b.toNat).toList).length + (3 * k + 1) := by
        rw [List.length_cons, String.length_toList, hbyte]
        omega
      rw [hplace, List.append_assoc, inColumns?_append]
      exact ih (Nat.lt_of_succ_lt_succ h)

/-! ## The line of a snapshot -/

/-- The line holds the numbers of a snapshot in fixed columns: the counter in as many as it is wide, and
then the three bytes and the eight registers in two each. -/
structure InColumns (width : Nat) (line : List Char) (s : Snapshot) : Prop where
  length : line.length = 44 + width
  counter : inColumns? width line 7 = some s.counter
  ahead (k : Nat) (h : k < 3) : inColumns? 2 line (10 + width + 3 * k) = some s.ahead[k].toNat
  registers (k : Nat) (h : k < 8) :
    inColumns? 2 line (21 + width + 3 * k) = some s.registers.values[k].toNat

/-- Every snapshot stands in the columns of its line. -/
theorem inColumns_text (s : Snapshot) : InColumns (hex 2 s.counter).length s.text.toList s := by
  have hahead : s.ahead.toList.length = 3 := s.ahead.length_toList
  have hregisters : s.registers.values.toList.length = 8 := s.registers.values.length_toList
  have hstart : "TRACE: ".toList.length = 7 := rfl
  have hbar : " |".toList.length = 2 := rfl
  have hcounter : (hex 2 s.counter).toList.length = (hex 2 s.counter).length := String.length_toList
  have hcells := length_columns s.ahead.toList
  have hrest := length_columns s.registers.values.toList
  have htext : s.text.toList = "TRACE: ".toList ++ ((hex 2 s.counter).toList ++ (" |".toList ++
      ((columns s.ahead.toList).toList ++ (" |".toList ++
        ((columns s.registers.values.toList).toList ++ []))))) := by
    simp [text, List.append_assoc]
  rw [htext]
  refine ⟨?_, ?_, fun k hk => ?_, fun k hk => ?_⟩
  · simp only [List.length_append, List.length_nil, hstart, hbar, hcounter, hcells, hrest, hahead,
      hregisters]
    omega
  · rw [show 7 = "TRACE: ".toList.length + 0 from rfl, inColumns?_append, inColumns?_hex]
  · have hplace : 10 + (hex 2 s.counter).length + 3 * k = "TRACE: ".toList.length +
        ((hex 2 s.counter).toList.length + (" |".toList.length + (3 * k + 1))) := by omega
    rw [hplace, inColumns?_append, inColumns?_append, inColumns?_append,
      inColumns?_columns (hahead.symm ▸ hk), Vector.getElem_toList]
  · have hplace : 21 + (hex 2 s.counter).length + 3 * k = "TRACE: ".toList.length +
        ((hex 2 s.counter).toList.length + (" |".toList.length +
          ((columns s.ahead.toList).toList.length + (" |".toList.length + (3 * k + 1))))) := by omega
    rw [hplace, inColumns?_append, inColumns?_append, inColumns?_append, inColumns?_append,
      inColumns?_append, inColumns?_columns (hregisters.symm ▸ hk), Vector.getElem_toList]

/-- A snapshot stands in the columns for a counter of this width exactly if its counter has it. -/
theorem inColumns_text_iff : InColumns width s.text.toList s ↔ (hex 2 s.counter).length = width := by
  constructor
  · intro h
    have hlength := s.inColumns_text.length.symm.trans h.length
    omega
  · rintro rfl
    exact s.inColumns_text

end Snapshot

namespace Processor

open Numeral Snapshot

variable {p : Processor}

/-! ## The trace -/

/-- The bytes of a snapshot are those in memory, and zero past its end. -/
theorem ahead_snapshot (p : Processor) {k : Nat} (hk : k < 3) :
    p.snapshot.ahead[k] = if h : p.counter + k < 256 then p.memory.cells[p.counter + k] else 0 := by
  have hpeek : p.snapshot.ahead[k] = p.peek (p.counter + k) := by
    match k, hk with
    | 0, _ | 1, _ | 2, _ => rfl
  rw [hpeek, peek]
  split_ifs with h
  · rw [Vector.getElem?_eq_getElem h, Option.getD_some]
  · rw [Vector.getElem?_eq_none (Nat.le_of_not_lt h), Option.getD_none]

/-- **A trace record has 46 characters within memory, and one more past its end.**  The numbers of a
reachable processor stand in fixed columns of its record, two digits each, exactly if its program counter
points into memory: from these columns the counter, the three bytes from there on and all registers are
read back.  The bytes are those in memory, and zero where there is none.  The only other program counter
is 256.  It takes three digits and moves everything behind it one column to the right. -/
theorem trace_in_columns_iff (h : p.Reachable) :
    let line := p.snapshot.text.toList
    (InColumns 2 line p.snapshot ↔ p.counter < 256) ∧
    (p.counter < 256 ∨ p.counter = 256 ∧ InColumns 3 line p.snapshot) ∧
    ∀ k, (hk : k < 3) →
      p.snapshot.ahead[k] =
        if hcell : p.counter + k < 256 then p.memory.cells[p.counter + k] else 0 := by
  intro line
  have htwo : InColumns 2 line p.snapshot ↔ p.counter < 256 := by
    rw [inColumns_text_iff]
    exact length_hex_eq_iff (by decide)
  refine ⟨htwo, ?_, fun k hk => p.ahead_snapshot hk⟩
  rcases h.counter_le.lt_or_eq with hlt | hend
  · exact .inl hlt
  · refine .inr ⟨hend, ?_⟩
    have hcounter : p.snapshot.counter = 256 := hend
    rw [inColumns_text_iff, hcounter]
    decide

/-- A jump to the last address. -/
theorem trace_in_columns_iff_last_address :
    let p := (loaded .unlimited [0x82, 0, 255, 0x54, 0]).after 2
    (p.Reachable ∧ p.counter = 255) ∧ p.snapshot.text.length = 46 ∧
      inColumns? 2 p.snapshot.text.toList 7 = some 255 ∧
      inColumns? 2 p.snapshot.text.toList 15 = some 0 ∧
      inColumns? 2 p.snapshot.text.toList 44 = some 0xF4 := by
  intro p
  have hreachable : p.Reachable := (reachable_loaded (by decide) _).after 2
  have hcounter : p.counter = 255 := by decide +kernel
  have hpointer : p.registers.values[7] = 0xF4 := by decide +kernel
  clear_value p
  obtain ⟨hcolumns, -, hahead⟩ := trace_in_columns_iff hreachable
  obtain ⟨hlength, hnumber, hbytes, hregisters⟩ := hcolumns.mpr (by omega)
  have hbyte := hbytes 1 (by decide)
  have hregister := hregisters 7 (by decide)
  rw [hahead 1 (by decide), dif_neg (by omega)] at hbyte
  have hbase : p.snapshot.registers.values[7].toNat = 0xF4 := congrArg UInt8.toNat hpointer
  exact ⟨⟨hreachable, hcounter⟩, String.length_toList ▸ hlength, hcounter ▸ hnumber, hbyte,
    hregister.trans (congrArg some hbase)⟩

/-- A processor that has run off the end of memory: the counter takes three digits. -/
theorem trace_wider_past_end :
    let p := (loaded .unlimited [0x82, 0, 255, 0x54, 0]).after 3
    p.Reachable ∧ p.snapshot.text = "TRACE: 100 | 00 00 00 | FF 00 00 00 00 00 00 F4" ∧
      p.snapshot.text.length = 47 ∧ ¬ InColumns 2 p.snapshot.text.toList p.snapshot := by
  intro p
  have hreachable : p.Reachable := (reachable_loaded (by decide) _).after 3
  have htext : p.snapshot.text = "TRACE: 100 | 00 00 00 | FF 00 00 00 00 00 00 F4" := by
    decide +kernel
  have hlength : p.snapshot.text.length = 47 := by rw [htext]; decide +kernel
  refine ⟨hreachable, htext, hlength, fun hcolumns => ?_⟩
  have hnarrow : p.snapshot.text.length = 46 := String.length_toList ▸ hcolumns.length
  rw [hlength] at hnarrow
  exact absurd hnarrow (by decide)

end Processor

end LS8
