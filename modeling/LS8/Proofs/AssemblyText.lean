import LS8.Proofs.AluNames
import LS8.Proofs.LogLines

/-!
# Assembly text loses nothing

The text of an instruction is its mnemonic and the texts of its operands, and it can be assembled again
(`Instruction.ofText?`).  It is read word by word.  The first word is the mnemonic, and no two operations
share one.  The other words are the operands, all but the last of them with a comma.  Registers are written
in decimal and values in hexadecimal, in as many digits as it takes; which of the two stands where is
settled by the operation (`Operation.assemble?`).

The reader finds each instruction in its text (`ofText?_text`), also those that decoding never gives.  So
different instructions have different texts.  Since decoding reads the encoding of its instruction and
nothing else, the text in a line of the log stands for the bytes that were decoded
(`text_determines_code`).
-/

namespace LS8

/-! ## Mnemonics -/

namespace Operation

/-- The operation with this mnemonic. -/
def ofMnemonic? (name : String) : Option Operation := all.find? (·.mnemonic == name)

/-- No two operations share a mnemonic. -/
theorem mnemonic_inj {op other : Operation} : op.mnemonic = other.mnemonic ↔ op = other := by
  have hall : ∀ op ∈ all, ∀ other ∈ all, op.mnemonic = other.mnemonic → op = other := by decide
  exact ⟨hall op op.mem_all other other.mem_all, congrArg mnemonic⟩

theorem ofMnemonic?_mnemonic (op : Operation) : ofMnemonic? op.mnemonic = some op := by
  have hunique (other : Operation) (h : other.mnemonic == op.mnemonic) : other = op :=
    mnemonic_inj.mp (beq_iff_eq.mp h)
  rw [ofMnemonic?, find?_eq_some_iff_of_unique op.mem_all fun other h _ => hunique other h]
  exact beq_self_eq_true op.mnemonic

theorem space_notMem_mnemonic (op : Operation) : ' ' ∉ op.mnemonic.toList := by
  have hall : ∀ op ∈ all, ' ' ∉ op.mnemonic.toList := by decide
  exact hall op op.mem_all

end Operation

/-! ## Operands -/

namespace Instruction

open Numeral

/-- The register with this name. -/
def registerNamed? (name : String) : Option UInt8 :=
  match name.toList with
  | 'R' :: digits => (unsigned? 10 255 digits).map Nat.toUInt8
  | _ => none

@[simp] theorem registerNamed?_registerName (reg : UInt8) :
    registerNamed? (registerName reg) = some reg := by
  have hlist : (registerName reg).toList = 'R' :: (decimal reg.toNat).toList := by
    rw [registerName, String.toList_append]
    rfl
  have hread : unsigned? 10 255 (decimal reg.toNat).toList = some reg.toNat :=
    unsigned?_decimal (Nat.le_of_lt_succ reg.toNat_lt)
  simp [registerNamed?, hlist, hread]

end Instruction

open Instruction in
/-- The instruction made of an operation and the texts of its operands. -/
def Operation.assemble? : Operation → List String → Option Instruction
  | .nop, [] => some .nop
  | .halt, [] => some .halt
  | .loadImmediate, [reg, value] => do
    return .loadImmediate (← registerNamed? reg) (← Log.byte? value)
  | .print, [reg] => (registerNamed? reg).map .print
  | .alu op, [reg] => do return .alu op (← registerNamed? reg) none
  | .alu op, [reg, other] => do
    return .alu op (← registerNamed? reg) (some (← registerNamed? other))
  | .push, [reg] => (registerNamed? reg).map .push
  | .pop, [reg] => (registerNamed? reg).map .pop
  | .call, [reg] => (registerNamed? reg).map .call
  | .ret, [reg] => (registerNamed? reg).map .ret
  | .jump, [reg] => (registerNamed? reg).map .jump
  | .jumpIfEqual, [reg] => (registerNamed? reg).map .jumpIfEqual
  | .jumpIfNotEqual, [reg] => (registerNamed? reg).map .jumpIfNotEqual
  | _, _ => none

namespace Instruction

open Numeral

variable {i : Instruction} {text : String} {texts : List String}

theorem assemble?_operandTexts (i : Instruction) :
    i.operation.assemble? i.operandTexts = some i := by
  cases i with
  | alu op reg other =>
    cases other <;> simp [operation, operandTexts, operands, Operation.assemble?]
  | _ => simp [operation, operandTexts, operands, Operation.assemble?]

/-- The text of an operand holds neither a space nor a comma. -/
theorem notMem_of_mem_operandTexts (h : text ∈ i.operandTexts) :
    ' ' ∉ text.toList ∧ ',' ∉ text.toList := by
  have hregister (reg : UInt8) : ' ' ∉ (registerName reg).toList ∧ ',' ∉ (registerName reg).toList :=
    ⟨space_notMem_registerName reg, notMem_registerName (by decide) (by decide) reg⟩
  have hvalue (v : UInt8) : ' ' ∉ (hex2 v.toNat).toList ∧ ',' ∉ (hex2 v.toNat).toList :=
    ⟨space_notMem_hex2 _, notMem_hex2 (by decide) (by decide) _⟩
  unfold operandTexts at h
  split at h
  · rcases List.mem_pair.mp h with rfl | rfl
    · exact hregister _
    · exact hvalue _
  · obtain ⟨reg, -, rfl⟩ := List.mem_map.mp h
    exact hregister reg

/-! ## Lines -/

/-- A word without its commas. -/
def withoutCommas (word : String) : String := String.ofList (word.toList.filter (· ≠ ','))

theorem withoutCommas_eq_self (h : ',' ∉ text.toList) : withoutCommas text = text := by
  have hall : ∀ c ∈ text.toList, decide (c ≠ ',') = true := by
    intro c hc
    rw [decide_eq_true_eq]
    rintro rfl
    exact h hc
  rw [withoutCommas, List.filter_eq_self.mpr hall, String.ofList_toList]

theorem withoutCommas_append_comma (text : String) :
    withoutCommas (text ++ ",") = withoutCommas text := by
  simp [withoutCommas]

/-- Texts with commas between them are the words of their line, but for the commas. -/
theorem words_intercalate (hne : texts ≠ [])
    (h : ∀ text ∈ texts, ' ' ∉ text.toList ∧ ',' ∉ text.toList) :
    (Log.words (", ".intercalate texts)).map withoutCommas = texts := by
  induction texts with
  | nil => exact absurd rfl hne
  | cons text rest ih =>
    obtain ⟨⟨hspace, hcomma⟩, hrest⟩ := List.forall_mem_cons.mp h
    cases rest with
    | nil =>
      rw [String.intercalate_singleton, Log.words_eq_singleton hspace, List.map_singleton,
        withoutCommas_eq_self hcomma]
    | cons next rest =>
      have hsplit : text ++ ", " = text ++ "," ++ " " := by rw [String.append_assoc]; rfl
      have hspace' : ' ' ∉ (text ++ ",").toList := by simpa using hspace
      rw [String.intercalate_cons_cons, hsplit, Log.words_append hspace', List.map_cons,
        withoutCommas_append_comma, withoutCommas_eq_self hcomma, ih (List.cons_ne_nil _ _) hrest]

/-- The words of an instruction are its mnemonic and its operands. -/
theorem exists_words_text (i : Instruction) :
    ∃ words, Log.words i.text = i.operation.mnemonic :: words ∧
      words.map withoutCommas = i.operandTexts := by
  have hname := i.operation.space_notMem_mnemonic
  cases htexts : i.operandTexts with
  | nil => exact ⟨[], by rw [text, htexts, Log.words_eq_singleton hname], rfl⟩
  | cons first rest =>
    refine ⟨Log.words (", ".intercalate (first :: rest)), ?_, words_intercalate (List.cons_ne_nil _ _) ?_⟩
    · rw [text, htexts, Log.words_append hname]
    · intro operand hoperand
      exact notMem_of_mem_operandTexts (htexts ▸ hoperand)

/-- The instruction with this text. -/
def ofText? (line : String) : Option Instruction :=
  match Log.words line with
  | [] => none
  | name :: operands => do (← Operation.ofMnemonic? name).assemble? (operands.map withoutCommas)

/-- An instruction is found in its text. -/
theorem ofText?_text (i : Instruction) : ofText? i.text = some i := by
  obtain ⟨words, hwords, hoperands⟩ := i.exists_words_text
  rw [ofText?, hwords]
  simp [Operation.ofMnemonic?_mnemonic, hoperands, assemble?_operandTexts]

example : ofText? "LDI R0, 0x08" = some (.loadImmediate 0 8) := by decide +kernel

/-- **The text of an instruction determines it.**  Two instructions with the same text are the same.  So
where two sources are decoded to instructions with the same text, the bytes that were read are the same;
and they can be told from the text in the line of the log that reports the decoding. -/
theorem text_determines_code :
    (∀ i j : Instruction, i.text = j.text → i = j) ∧
    (∀ (fetch fetch' : Fetch) (address address' : Nat) (i j : Instruction),
      let d := Decoding.instruction fetch address
      let d' := Decoding.instruction fetch' address'
      d.result = .ok i → d'.result = .ok j → i.text = j.text →
        i.encode = j.encode ∧ d.fetched.map fetch = d'.fetched.map fetch') ∧
    ∀ (address : Nat) (i : Instruction),
      ((Log.decode? (Event.decoded address i).line).bind fun (_, _, text) => ofText? text).map encode =
        some i.encode := by
  have hinjective : ∀ i j : Instruction, i.text = j.text → i = j := by
    intro i j htext
    have hfound := congrArg ofText? htext
    rw [ofText?_text, ofText?_text] at hfound
    exact Option.some.inj hfound
  refine ⟨hinjective, ?_, ?_⟩
  · intro fetch fetch' address address' i j d d' hi hj htext
    obtain rfl := hinjective i j htext
    have hbytes := (Decoding.ends_instruction fetch address).map_fetched hi
    have hbytes' := (Decoding.ends_instruction fetch' address').map_fetched hj
    exact ⟨rfl, hbytes.trans hbytes'.symm⟩
  · intro address i
    rw [Log.decode?_line]
    simp [Event.decode?, ofText?_text]

/-- The same instruction at two addresses of two memories. -/
theorem text_determines_code_shifted :
    let fetch : Fetch := (⟨#v[0xA0, 1, 2, 0xA0]⟩ : Memory 4).read
    let fetch' : Fetch := (⟨#v[0x00, 0xA0, 1, 2]⟩ : Memory 4).read
    let d := Decoding.instruction fetch 0
    let d' := Decoding.instruction fetch' 1
    (d.result = .ok (.alu .add 1 (some 2)) ∧ d'.result = .ok (.alu .add 1 (some 2))) ∧
      d.fetched.map fetch = d'.fetched.map fetch' := by
  intro fetch fetch' d d'
  have hd : d.result = .ok (.alu .add 1 (some 2)) := by decide
  have hd' : d'.result = .ok (.alu .add 1 (some 2)) := by decide
  obtain ⟨-, hbytes, -⟩ := text_determines_code
  exact ⟨⟨hd, hd'⟩, (hbytes fetch fetch' 0 1 _ _ hd hd' rfl).2⟩

end Instruction

end LS8
