import LS8.Proofs.Output

/-!
# Reading the lines of a log

The lines of a log are meant for people, but three kinds of them say all that is needed to follow the
processor: a byte was pushed, a byte was popped, an instruction was decoded.  `Log.push?`, `Log.pop?` and
`Log.decode?` read these lines, from nothing but their text, and turn every other line down.

A line is read word by word.  Words are what stands between spaces, so the numbers and names in a line
must not contain any (`words_append`).  Numbers are in hexadecimal, in as many digits as it takes, and
`Numeral.ofHex2?` undoes `Numeral.hex2`.  For the line of an event the readers find what the event says:
`push?_line`, `pop?_line` and `decode?_line`.
-/

namespace LS8

/-! ## Hexadecimal numerals -/

namespace Numeral

variable {c : Char} {n : Nat} {digits : List Char}

/-- The value of a hexadecimal digit, in upper case. -/
def hexDigit? (c : Char) : Option Nat := "0123456789ABCDEF".toList.idxOf? c

/-- The value of a row of hexadecimal digits. -/
def hexDigits? (digits : List Char) : Option Nat :=
  digits.foldlM (fun n c => (hexDigit? c).map (16 * n + ·)) 0

/-- The number that is written as `0x` and hexadecimal digits. -/
def ofHex2? (word : String) : Option Nat :=
  match word.toList with
  | '0' :: 'x' :: digits => hexDigits? digits
  | _ => none

theorem hexDigit?_digitChar (h : n < 16) : hexDigit? (Nat.digitChar n).toUpper = some n := by
  revert h
  revert n
  decide

theorem hexDigits?_append (front rest : List Char) :
    hexDigits? (front ++ rest) =
      (hexDigits? front).bind fun n =>
        rest.foldlM (fun n c => (hexDigit? c).map (16 * n + ·)) n :=
  List.foldlM_append

theorem hexDigits?_toDigits (n : Nat) :
    hexDigits? ((Nat.toDigits 16 n).map Char.toUpper) = some n := by
  induction n using Nat.strong_induction_on with
  | _ n ih =>
    by_cases hlt : n < 16
    · simp [Nat.toDigits_of_lt_base hlt, hexDigits?, hexDigit?_digitChar hlt]
    · have hle : 16 ≤ n := Nat.le_of_not_lt hlt
      have hlast : hexDigit? (Nat.digitChar (n % 16)).toUpper = some (n % 16) :=
        hexDigit?_digitChar (Nat.mod_lt n (by decide))
      rw [Nat.toDigits_of_base_le (by decide) hle, List.map_append, hexDigits?_append,
        ih (n / 16) (Nat.div_lt_self (by omega) (by decide))]
      simp [hlast, Nat.div_add_mod]

/-- Zeros in front do not count. -/
theorem hexDigits?_leftpad (width : Nat) (digits : List Char) :
    hexDigits? (digits.leftpad width '0') = hexDigits? digits := by
  rw [List.leftpad]
  generalize width - digits.length = k
  induction k with
  | zero => rfl
  | succ k ih =>
    have hzero : hexDigit? '0' = some 0 := by decide
    rw [List.replicate_succ, List.cons_append, hexDigits?, List.foldlM_cons, hzero]
    exact ih

theorem hexDigits?_hex (width n : Nat) : hexDigits? (hex width n).toList = some n := by
  rw [hex, String.toList_ofList, hexDigits?_leftpad, hexDigits?_toDigits]

theorem hexDigits?_of_mem (h : c ∈ digits) (hc : hexDigit? c = none) : hexDigits? digits = none := by
  obtain ⟨front, rest, rfl⟩ := List.append_of_mem h
  rw [hexDigits?_append]
  simp [hc]

theorem toList_hex2 (n : Nat) : (hex2 n).toList = '0' :: 'x' :: (hex 2 n).toList := by
  simp [hex2]

/-- A number written in hexadecimal is read back. -/
@[simp] theorem ofHex2?_hex2 (n : Nat) : ofHex2? (hex2 n) = some n := by
  simp [ofHex2?, toList_hex2, hexDigits?_hex]

/-- A number in hexadecimal holds hexadecimal digits and the mark in front of them. -/
theorem notMem_hex2 (hdigit : hexDigit? c = none) (hmark : c ≠ 'x') (n : Nat) :
    c ∉ (hex2 n).toList := by
  intro h
  have hzero : c ≠ '0' := by
    rintro rfl
    exact absurd hdigit (by decide)
  rw [toList_hex2] at h
  have hdigits : c ∈ (hex 2 n).toList := by simpa [hzero, hmark] using h
  -- What has a value consists of digits.
  have hnone := hexDigits?_of_mem hdigits hdigit
  rw [hexDigits?_hex] at hnone
  cases hnone

theorem space_notMem_hex2 (n : Nat) : ' ' ∉ (hex2 n).toList := notMem_hex2 (by decide) (by decide) n

end Numeral

theorem Instruction.notMem_registerName {c : Char} (hdigit : c.isDigit = false) (hmark : c ≠ 'R')
    (reg : UInt8) : c ∉ (registerName reg).toList := by
  have hdecimal := Numeral.notMem_decimal hdigit reg.toNat
  simp [registerName, hdecimal, hmark]

theorem Instruction.space_notMem_registerName (reg : UInt8) : ' ' ∉ (registerName reg).toList :=
  notMem_registerName (by decide) (by decide) reg

/-! ## What an event says -/

namespace Event

/-- The cell and the byte of a push. -/
def push? : Event → Option (UInt8 × UInt8)
  | .bytePushed value cell | .registerPushed _ value cell => some (cell, value)
  | _ => none

/-- The cell and the byte of a pop. -/
def pop? : Event → Option (UInt8 × UInt8)
  | .popped value cell _ => some (cell, value)
  | _ => none

/-- The address, the opcode and the assembly text of an instruction that was decoded. -/
def decode? : Event → Option (Nat × UInt8 × String)
  | .decoded address i => some (address, i.operation.opcode, i.text)
  | _ => none

end Event

namespace Log

open Numeral Instruction

/-! ## Words -/

/-- The words of a line. -/
def words (line : String) : List String := (line.toList.splitOn ' ').map String.ofList

theorem words_append {word : String} (h : ' ' ∉ word.toList) (rest : String) :
    words (word ++ " " ++ rest) = word :: words rest := by
  have hsplit : (word ++ " " ++ rest).toList = word.toList ++ ' ' :: rest.toList := by simp
  rw [words, hsplit, List.splitOn_append_cons_self_of_not_mem h, List.map_cons,
    String.ofList_toList]
  rfl

theorem words_eq_singleton {word : String} (h : ' ' ∉ word.toList) : words word = [word] := by
  rw [words, List.splitOn_eq_singleton h, List.map_singleton, String.ofList_toList]

/-- The words of a line make up the line. -/
theorem intercalate_words (line : String) : " ".intercalate (words line) = line := by
  have hlists : (words line).map String.toList = line.toList.splitOn ' ' := by
    simp [words, Function.comp_def]
  have hspace : " ".toList = [' '] := rfl
  rw [← String.toList_inj, String.toList_intercalate, hlists, hspace, List.intercalate_splitOn]

/-! ## Readers -/

/-- The byte that a word stands for. -/
def byte? (word : String) : Option UInt8 :=
  (ofHex2? word).bind fun n => if n < 256 then some n.toUInt8 else none

/-- Reads the line of a push, which may name the register that the byte is from: the cell and the byte. -/
def push? (line : String) : Option (UInt8 × UInt8) :=
  match words line with
  | ["DEBUG", "pushed", value, "to", cell]
  | ["DEBUG", "pushed", _, "=", value, "to", cell] => do return (← byte? cell, ← byte? value)
  | _ => none

/-- Reads the line of a pop: the cell and the byte. -/
def pop? (line : String) : Option (UInt8 × UInt8) :=
  match words line with
  | ["DEBUG", "popped", value, "from", cell, "into", _] => do return (← byte? cell, ← byte? value)
  | _ => none

/-- Reads the line of an instruction: its address, its opcode and its assembly text. -/
def decode? (line : String) : Option (Nat × UInt8 × String) :=
  match words line with
  | "TRACE" :: address :: "|" :: opcode :: "|" :: text => do
    return (← ofHex2? address, ← byte? opcode, " ".intercalate text)
  | _ => none

@[simp] theorem byte?_hex2 (b : UInt8) : byte? (hex2 b.toNat) = some b := by
  simp [byte?, b.toNat_lt]

/-! ## The lines of events -/

@[simp] theorem words_line (e : Event) : words e.line = e.level.name :: words e.message :=
  words_append (by cases e.level <;> decide) _

@[simp] theorem words_decoded (address : Nat) (i : Instruction) :
    words (Event.decoded address i).message =
      hex2 address :: "|" :: hex2 i.operation.opcode.toNat :: "|" :: words i.text := by
  have hmessage : (Event.decoded address i).message =
      hex2 address ++ " " ++ ("|" ++ " " ++ (hex2 i.operation.opcode.toNat ++ " " ++
        ("|" ++ " " ++ i.text))) := by
    show hex2 address ++ " | " ++ hex2 i.operation.opcode.toNat ++ " | " ++ i.text = _
    simp [← String.toList_inj]
  rw [hmessage, words_append (space_notMem_hex2 _), words_append (by decide),
    words_append (space_notMem_hex2 _), words_append (by decide)]

@[simp] theorem words_bytePushed (value cell : UInt8) :
    words (Event.bytePushed value cell).message =
      ["pushed", hex2 value.toNat, "to", hex2 cell.toNat] := by
  have hmessage : (Event.bytePushed value cell).message =
      "pushed" ++ " " ++ (hex2 value.toNat ++ " " ++ ("to" ++ " " ++ hex2 cell.toNat)) := by
    show "pushed " ++ hex2 value.toNat ++ " to " ++ hex2 cell.toNat = _
    simp [← String.toList_inj]
  rw [hmessage, words_append (by decide), words_append (space_notMem_hex2 _),
    words_append (by decide), words_eq_singleton (space_notMem_hex2 _)]

@[simp] theorem words_registerPushed (reg value cell : UInt8) :
    words (Event.registerPushed reg value cell).message =
      ["pushed", registerName reg, "=", hex2 value.toNat, "to", hex2 cell.toNat] := by
  have hmessage : (Event.registerPushed reg value cell).message =
      "pushed" ++ " " ++ (registerName reg ++ " " ++ ("=" ++ " " ++ (hex2 value.toNat ++ " " ++
        ("to" ++ " " ++ hex2 cell.toNat)))) := by
    show "pushed " ++ registerName reg ++ " = " ++ hex2 value.toNat ++ " to " ++
      hex2 cell.toNat = _
    simp [← String.toList_inj]
  rw [hmessage, words_append (by decide), words_append (space_notMem_registerName _),
    words_append (by decide), words_append (space_notMem_hex2 _), words_append (by decide),
    words_eq_singleton (space_notMem_hex2 _)]

@[simp] theorem words_popped (value cell reg : UInt8) :
    words (Event.popped value cell reg).message =
      ["popped", hex2 value.toNat, "from", hex2 cell.toNat, "into", registerName reg] := by
  have hmessage : (Event.popped value cell reg).message =
      "popped" ++ " " ++ (hex2 value.toNat ++ " " ++ ("from" ++ " " ++ (hex2 cell.toNat ++ " " ++
        ("into" ++ " " ++ registerName reg)))) := by
    show "popped " ++ hex2 value.toNat ++ " from " ++ hex2 cell.toNat ++ " into " ++
      registerName reg = _
    simp [← String.toList_inj]
  rw [hmessage, words_append (by decide), words_append (space_notMem_hex2 _),
    words_append (by decide), words_append (space_notMem_hex2 _), words_append (by decide),
    words_eq_singleton (space_notMem_registerName _)]

/-- The line of an event is read as a push if the event is one. -/
theorem push?_line (e : Event) : push? e.line = e.push? := by
  cases e <;> simp [push?, Event.push?, Event.level, Level.name]

/-- The line of an event is read as a pop if the event is one. -/
theorem pop?_line (e : Event) : pop? e.line = e.pop? := by
  cases e <;> simp [pop?, Event.pop?, Event.level, Level.name]

example : pop? "DEBUG popped 0x07 from 0xF3 into R1" = some (0xF3, 7) := by decide +kernel

/-- A line that does not start with an address is not that of an instruction. -/
theorem decode?_of_first_word {e : Event} {word rest : String}
    (h : e.message = word ++ " " ++ rest) (hspace : ' ' ∉ word.toList)
    (haddress : ofHex2? word = none) : decode? e.line = none := by
  rw [decode?, words_line, h, words_append hspace]
  split
  · next hwords => simp_all
  · rfl

/-- The line of an event is read as that of an instruction if the event is the decoding of one. -/
theorem decode?_line (e : Event) : decode? e.line = e.decode? := by
  cases e with
  | bytesWritten length start stop =>
    have hmessage : (Event.bytesWritten length start stop).message = "writing" ++ " " ++
        ("0x" ++ hex 1 length ++ " bytes to " ++ hex4 start ++ " - " ++ hex4 stop) := by
      show "writing 0x" ++ hex 1 length ++ " bytes to " ++ hex4 start ++ " - " ++ hex4 stop = _
      simp [← String.toList_inj]
    exact decode?_of_first_word hmessage (by decide) (by decide)
  | lineSkipped number code =>
    have hmessage : (Event.lineSkipped number code).message = "skipping" ++ " " ++
        ("line " ++ decimal number ++ ": '" ++ code ++ "'") := by
      show "skipping line " ++ decimal number ++ ": '" ++ code ++ "'" = _
      simp [← String.toList_inj]
    exact decode?_of_first_word hmessage (by decide) (by decide)
  | _ => simp [decode?, Event.decode?, Event.level, Level.name, intercalate_words]

/-! ## Lines in a row -/

theorem filterMap_push?_lines (log : List Event) :
    (log.map Event.line).filterMap push? = log.filterMap Event.push? := by
  rw [List.filterMap_map]
  exact List.filterMap_congr fun e _ => push?_line e

theorem filterMap_decode?_lines (log : List Event) :
    (log.map Event.line).filterMap decode? = log.filterMap Event.decode? := by
  rw [List.filterMap_map]
  exact List.filterMap_congr fun e _ => decode?_line e

end Log

end LS8
