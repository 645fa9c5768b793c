import LS8.Decoding
import LS8.Proofs.Contents

/-!
# What decoding reads

Decoding asks a source for bytes, one address after the other, and stops as soon as its answer is
settled.  There are three ways in which this ends, the cases of `Ends`.  The bytes read are the encoding
of an instruction, and the instruction is the answer; they are a proper beginning of an encoding, and
the source fails at the address behind them; or the first byte is no opcode, and no second one is asked
for.  `ends_instruction` says that decoding always ends in one of these, and `Ends.instruction_eq` that
no two of them apply at once.

How many operands are fetched, which ones an instruction keeps and how long it is are said in three
places: by the upper bits of the opcode, by `Operation.withOperands` and by `Instruction.length`.  That
they agree is the content of `operands_withOperands` and `WellFormed.length_operands`.  On this rests that
encoding undoes decoding, and decoding undoes the encoding of well-formed instructions.
-/

namespace LS8

/-! ## Opcode bytes -/

/-- The number of operands is the upper quarter of the byte. -/
theorem Opcode.operandCount_eq (o : Opcode) : o.operandCount = o.byte.toNat / 64 := by
  simp [operandCount, UInt8.toNat_shiftRight, Nat.shiftRight_eq_div_pow]

/-- A mark is a bit of the opcode. -/
theorem Opcode.mark_eq (o : Opcode) {i : UInt8} (h : i < 8) :
    ((o.byte >>> i) &&& 1 == 1) = o.byte.toNat.testBit i.toNat := by
  have hamount : i.toNat % 8 = i.toNat := Nat.mod_eq_of_lt h
  apply Bool.eq_iff_iff.mpr
  simp [← UInt8.toNat_inj, UInt8.toNat_shiftRight, hamount, Nat.shiftRight_eq_div_pow,
    Nat.testBit_eq_decide_div_mod_eq, Nat.and_one_is_mod]

theorem Opcode.usesAlu_eq (o : Opcode) : o.usesAlu = o.byte.toNat.testBit 5 :=
  o.mark_eq (show 5 < 8 by decide)

namespace Operation

theorem operandCount_le_two (op : Operation) : op.operandCount ≤ 2 := by
  cases op with
  | alu op => cases op <;> decide
  | _ => decide

theorem dispatch_opcode (address : Nat) (op : Operation) : dispatch address op.opcode = .ok op := by
  simp [dispatch]

/-- An instruction keeps the operands that its opcode announces. -/
theorem operands_withOperands (op : Operation) (first second : UInt8) :
    (op.withOperands first second).operands = [first, second].take op.operandCount := by
  cases op with
  | alu op => cases op <;> rfl
  | _ => rfl

end Operation

/-! ## Well-formed instructions -/

namespace Instruction

/-- An instruction has the operands that its opcode announces.  Only for the arithmetic unit, whose
second register may be there or not, is this a question. -/
def WellFormed : Instruction → Prop
  | .alu op _ other => other.isNone = op.isUnary
  | _ => True

variable {i : Instruction}

theorem WellFormed.withOperands_operands (h : i.WellFormed) :
    i.operation.withOperands (i.operands.getD 0 0) (i.operands.getD 1 0) = i := by
  cases i with
  | alu op reg other =>
    have hother : other.isNone = op.isUnary := h
    cases other <;> simp_all [operation, operands, Operation.withOperands]
  | _ => rfl

theorem WellFormed.length_eq (h : i.WellFormed) : i.length = 1 + i.operation.operandCount := by
  have hlength := length_withOperands i.operation (i.operands.getD 0 0) (i.operands.getD 1 0)
  rwa [h.withOperands_operands] at hlength

theorem WellFormed.length_operands (h : i.WellFormed) :
    i.operands.length = i.operation.operandCount :=
  Nat.add_left_cancel h.length_eq

end Instruction

namespace Operation

theorem wellFormed_withOperands (op : Operation) (first second : UInt8) :
    (op.withOperands first second).WellFormed := by
  cases op with
  | alu op => cases op <;> rfl
  | _ => trivial

/-- Up to two operand bytes are the beginning of the operands of some instruction, if the opcode
announces as many or more. -/
theorem exists_operands (op : Operation) {data : List UInt8} (h : data.length ≤ op.operandCount) :
    ∃ i : Instruction, i.WellFormed ∧ i.operation = op ∧ data <+: i.operands := by
  have htwo : data.length ≤ 2 := h.trans op.operandCount_le_two
  have hdata : data = [data.getD 0 0, data.getD 1 0].take data.length := by
    match data, htwo with
    | [], _ => rfl
    | [_], _ => rfl
    | [_, _], _ => rfl
  refine ⟨op.withOperands (data.getD 0 0) (data.getD 1 0), op.wellFormed_withOperands _ _,
    Instruction.operation_withOperands .., ?_⟩
  rw [operands_withOperands]
  nth_rewrite 1 [hdata]
  exact List.take_prefix_take_left h

end Operation

/-! ## Sources of bytes -/

/-- A source of bytes gives the bytes of a list from an address on. -/
def Fetch.Gives (fetch : Fetch) (address : Nat) (data : List UInt8) : Prop :=
  (List.range' address data.length).map fetch = data.map .ok

namespace Fetch

variable {fetch fetch' : Fetch} {address : Nat} {data : List UInt8}

theorem add_length_cons (address : Nat) (b : UInt8) (data : List UInt8) :
    address + (b :: data).length = address + 1 + data.length := by
  rw [List.length_cons]
  omega

theorem gives_cons {b : UInt8} :
    fetch.Gives address (b :: data) ↔ fetch address = .ok b ∧ fetch.Gives (address + 1) data := by
  simp [Fetch.Gives, List.range'_succ]

theorem gives_append {more : List UInt8} :
    fetch.Gives address (data ++ more) ↔
      fetch.Gives address data ∧ fetch.Gives (address + data.length) more := by
  induction data generalizing address with
  | nil => simp [Fetch.Gives]
  | cons b data ih => rw [List.cons_append, gives_cons, gives_cons, ih, add_length_cons, and_assoc]

theorem Gives.congr (h : fetch.Gives address data)
    (hsame : ∀ a ∈ List.range' address data.length, fetch' a = fetch a) :
    fetch'.Gives address data := by
  rw [Fetch.Gives, List.map_congr_left hsame]
  exact h

/-- A source does not fail where it gives a byte. -/
theorem Gives.ne_error {a : Nat} {e : MemoryError} (h : fetch.Gives address data)
    (ha : a ∈ List.range' address data.length) : fetch a ≠ .error e := by
  have hmem : fetch a ∈ data.map .ok := h ▸ List.mem_map_of_mem ha
  obtain ⟨v, -, hv⟩ := List.mem_map.mp hmem
  simp [← hv]

theorem Gives.getElem {k : Nat} (h : fetch.Gives address data) (hk : k < data.length) :
    fetch (address + k) = .ok data[k] := by
  have hget := List.getElem_of_eq h (i := k) (by simpa using hk)
  simpa using hget

theorem Gives.lt {m : Memory 256} {a : Nat} (h : Gives m.read address data)
    (ha : a ∈ List.range' address data.length) : a < 256 := by
  by_contra hge
  exact h.ne_error ha (dif_neg hge)

/-- A memory gives no bytes but its own. -/
theorem Gives.le {m : Memory 256} (h : Gives m.read address data) (haddress : address ≤ 256) :
    address + data.length ≤ 256 := by
  by_contra hgt
  have hlast := Memory.lt_of_read_eq_ok (h.getElem (k := data.length - 1) (by omega))
  omega

/-- A memory gives the bytes that it holds, up to its end. -/
theorem gives_of_holds {m : Memory 256} (h : m.Holds address.toUInt8 data)
    (hfits : address + data.length ≤ 256) : Gives m.read address data := by
  induction data generalizing address with
  | nil => rfl
  | cons b data ih =>
    obtain ⟨hcell, hrest⟩ := h
    rw [List.length_cons] at hfits
    have hnext : (address + 1).toUInt8 = address.toUInt8 + 1 := UInt8.ofNat_add address 1
    refine gives_cons.mpr ⟨?_, ih (hnext ▸ hrest) (by omega)⟩
    rw [Memory.read_eq_ok (by omega), hcell]

end Fetch

/-! ## Fetching operands -/

namespace Decoding

open Fetch

variable {fetch fetch' : Fetch} {address n : Nat} {data : List UInt8} {e : MemoryError}

theorem bytes_of_gives (h : fetch.Gives address data) :
    bytes fetch address data.length = ⟨List.range' address data.length, .ok data⟩ := by
  induction data generalizing address with
  | nil => rfl
  | cons b data ih =>
    obtain ⟨hfirst, hrest⟩ := gives_cons.mp h
    simp [bytes, hfirst, ih hrest, Except.map, List.range'_succ]

theorem bytes_of_cutOff (h : fetch.Gives address data) (he : fetch (address + data.length) = .error e)
    (hn : data.length < n) :
    bytes fetch address n = ⟨List.range' address (data.length + 1), .error (.memory e)⟩ := by
  induction data generalizing address n with
  | nil =>
    obtain ⟨n, rfl⟩ := Nat.exists_eq_add_of_lt hn
    simp [bytes, show fetch address = .error e from he]
  | cons b data ih =>
    obtain ⟨hfirst, hrest⟩ := gives_cons.mp h
    obtain ⟨n, rfl⟩ := Nat.exists_eq_add_of_lt hn
    have htail := ih (n := data.length + 1 + n) hrest (add_length_cons .. ▸ he) (by omega)
    simp [bytes, hfirst, htail, Except.map, List.range'_succ]

/-- A source gives as many bytes as are wanted, or it fails behind the first few of them. -/
theorem gives_or_fails (fetch : Fetch) (address n : Nat) :
    (∃ data, data.length = n ∧ fetch.Gives address data) ∨
      ∃ data e, data.length < n ∧ fetch.Gives address data ∧
        fetch (address + data.length) = .error e := by
  induction n generalizing address with
  | zero => exact .inl ⟨[], rfl, rfl⟩
  | succ n ih =>
    cases hfirst : fetch address with
    | error e => exact .inr ⟨[], e, Nat.succ_pos n, rfl, hfirst⟩
    | ok b =>
      rcases ih (address + 1) with ⟨data, hlength, hgives⟩ | ⟨data, e, hlength, hgives, he⟩
      · exact .inl ⟨b :: data, congrArg (· + 1) hlength, gives_cons.mpr ⟨hfirst, hgives⟩⟩
      · exact .inr ⟨b :: data, e, Nat.succ_lt_succ hlength, gives_cons.mpr ⟨hfirst, hgives⟩,
          add_length_cons .. ▸ he⟩

/-! ## The ways in which decoding ends -/

/-- The ways in which decoding at an address ends. -/
inductive Ends (fetch : Fetch) (address : Nat) : Decoding Instruction → Prop
  /-- The bytes read are the encoding of an instruction. -/
  | complete {i : Instruction} (hi : i.WellFormed) (h : fetch.Gives address i.encode) :
      Ends fetch address ⟨List.range' address i.length, .ok i⟩
  /-- The source fails where the encoding of an instruction would go on. -/
  | cutOff {i : Instruction} {data : List UInt8} {e : MemoryError} (hi : i.WellFormed)
      (hdata : data <+: i.encode) (hshort : data.length < i.length)
      (h : fetch.Gives address data) (he : fetch (address + data.length) = .error e) :
      Ends fetch address ⟨List.range' address (data.length + 1), .error (.memory e)⟩
  /-- The first byte is no opcode. -/
  | unknown {b : UInt8} (h : fetch address = .ok b) (hb : Operation.ofOpcode? b = none) :
      Ends fetch address ⟨[address], .error
        (if b.toNat.testBit 5 then .unsupportedOperation b address
          else .unknownInstruction b address)⟩

theorem Ends.instruction_eq {d : Decoding Instruction} (h : Ends fetch address d) :
    instruction fetch address = d := by
  cases h with
  | @complete i hi h =>
    obtain ⟨hopcode, hoperands⟩ := gives_cons.mp h
    have hbytes := bytes_of_gives hoperands
    rw [hi.length_operands] at hbytes
    simp only [instruction, hopcode, Operation.dispatch_opcode, hbytes, Except.map,
      hi.withOperands_operands, hi.length_eq, Nat.add_comm 1, List.range'_succ]
  | @cutOff i data e hi hdata hshort h he =>
    cases data with
    | nil => simp [instruction, show fetch address = .error e from he]
    | cons b rest =>
      obtain ⟨rfl, hprefix⟩ := List.cons_prefix_cons.mp hdata
      obtain ⟨hopcode, hrest⟩ := gives_cons.mp h
      have hbehind : fetch (address + 1 + rest.length) = .error e := add_length_cons .. ▸ he
      have hlt : rest.length < i.operation.operandCount := by
        rw [hi.length_eq, List.length_cons] at hshort
        omega
      have hbytes := bytes_of_cutOff hrest hbehind hlt
      simp only [instruction, hopcode, Operation.dispatch_opcode, hbytes, Except.map,
        List.length_cons, List.range'_succ]
  | @unknown b h hb =>
    cases halu : b.toNat.testBit 5 <;>
      simp [instruction, h, Operation.dispatch, hb, Opcode.usesAlu_eq, halu]

theorem exists_ends (fetch : Fetch) (address : Nat) : ∃ d, Ends fetch address d := by
  cases hfirst : fetch address with
  | error e => exact ⟨_, .cutOff (i := .nop) trivial List.nil_prefix Nat.one_pos rfl hfirst⟩
  | ok b =>
    cases hop : Operation.ofOpcode? b with
    | none => exact ⟨_, .unknown hfirst hop⟩
    | some op =>
      obtain rfl := Operation.ofOpcode?_eq_some_iff.mp hop
      rcases gives_or_fails fetch (address + 1) op.operandCount with
        ⟨data, hlength, hgives⟩ | ⟨data, e, hlength, hgives, he⟩
      · obtain ⟨i, hi, rfl, hprefix⟩ := op.exists_operands hlength.le
        obtain rfl : data = i.operands :=
          hprefix.eq_of_length (hlength.trans hi.length_operands.symm)
        exact ⟨_, .complete hi (gives_cons.mpr ⟨hfirst, hgives⟩)⟩
      · obtain ⟨i, hi, rfl, hprefix⟩ := op.exists_operands hlength.le
        have hshort : (i.operation.opcode :: data).length < i.length := by
          rw [hi.length_eq, List.length_cons]
          omega
        have hbehind : fetch (address + (i.operation.opcode :: data).length) = .error e := by
          rw [add_length_cons, he]
        exact ⟨_, .cutOff hi (List.cons_prefix_cons.mpr ⟨rfl, hprefix⟩) hshort
          (gives_cons.mpr ⟨hfirst, hgives⟩) hbehind⟩

theorem ends_instruction (fetch : Fetch) (address : Nat) :
    Ends fetch address (instruction fetch address) := by
  obtain ⟨d, hd⟩ := exists_ends fetch address
  rw [hd.instruction_eq]
  exact hd

namespace Ends

variable {d : Decoding Instruction}

/-- The addresses asked for are one to three in a row. -/
theorem fetched_eq (h : Ends fetch address d) :
    ∃ n, 0 < n ∧ n ≤ 3 ∧ d.fetched = List.range' address n := by
  have hlength (i : Instruction) (hi : i.WellFormed) : i.length ≤ 3 := by
    have htwo := i.operation.operandCount_le_two
    rw [hi.length_eq]
    omega
  cases h with
  | @complete i hi =>
    exact ⟨i.length, by simp [Instruction.length], hlength i hi, rfl⟩
  | @cutOff i _ _ hi _ hshort => exact ⟨_, Nat.succ_pos _, hshort.trans_le (hlength i hi), rfl⟩
  | unknown => exact ⟨1, Nat.one_pos, by decide, rfl⟩

/-- Decoding stops where its source fails, with the error of the source. -/
theorem of_fails {a : Nat} (h : Ends fetch address d) (ha : a ∈ d.fetched)
    (he : fetch a = .error e) : d.fetched.getLast? = some a ∧ d.result = .error (.memory e) := by
  cases h with
  | @complete i hi h =>
    exact absurd he (h.ne_error (i.length_encode ▸ ha))
  | @cutOff i data e' hi hdata hshort h he' =>
    rw [List.range'_concat, List.mem_append, List.mem_singleton, Nat.one_mul] at ha
    rcases ha with hbefore | rfl
    · exact absurd he (h.ne_error hbefore)
    · obtain rfl := Except.error.inj (he'.symm.trans he)
      simp [List.range'_concat]
  | unknown h =>
    rw [List.mem_singleton.mp ha, h] at he
    cases he

/-- What decoding gives was read byte for byte. -/
theorem of_ok {i : Instruction} (h : Ends fetch address d) (hd : d.result = .ok i) :
    i.WellFormed ∧ fetch.Gives address i.encode ∧ d.fetched = List.range' address i.length := by
  cases h with
  | complete hi h =>
    cases hd
    exact ⟨hi, h, rfl⟩
  | cutOff | unknown => cases hd

theorem map_fetched {i : Instruction} (h : Ends fetch address d) (hd : d.result = .ok i) :
    d.fetched.map fetch = i.encode.map .ok := by
  obtain ⟨-, hgives, hfetched⟩ := h.of_ok hd
  rw [hfetched, ← i.length_encode]
  exact hgives

/-- Behind an opcode, decoding succeeds unless the source fails. -/
theorem exists_ok {b : UInt8} {op : Operation} (h : Ends fetch address d) (hb : fetch address = .ok b)
    (hop : Operation.ofOpcode? b = some op) (hgiven : ∀ a ∈ d.fetched, ∀ e, fetch a ≠ .error e) :
    ∃ i, d.result = .ok i := by
  cases h with
  | complete => exact ⟨_, rfl⟩
  | @cutOff _ data e _ _ _ _ he => exact absurd he (hgiven _ (by simp) e)
  | unknown hb' hnone =>
    obtain rfl := Except.ok.inj (hb'.symm.trans hb)
    rw [hop] at hnone
    cases hnone

/-- Other bytes than those asked for make no difference. -/
theorem congr (h : Ends fetch address d) (hsame : ∀ a ∈ d.fetched, fetch' a = fetch a) :
    Ends fetch' address d := by
  cases h with
  | @complete i hi h => exact .complete hi (h.congr (i.length_encode ▸ hsame))
  | @cutOff i data e hi hdata hshort h he =>
    rw [List.range'_concat] at hsame
    have hbefore := h.congr fun a ha => hsame a (List.mem_append_left _ ha)
    have hlast : fetch' (address + data.length) = .error e := by
      rw [hsame _ (by simp), he]
    exact .cutOff hi hdata hshort hbefore hlast
  | unknown h hb => exact .unknown ((hsame address (List.mem_singleton_self _)).trans h) hb

end Ends

/-- An instruction that is decoded lies in memory with all of its bytes. -/
theorem length_le_of_instruction {m : Memory 256} {i : Instruction}
    (h : (instruction m.read address).result = .ok i) : address + i.length ≤ 256 := by
  obtain ⟨-, hgives, -⟩ := (ends_instruction m.read address).of_ok h
  have hfirst := Memory.lt_of_read_eq_ok (gives_cons.mp hgives).1
  exact i.length_encode ▸ hgives.le hfirst.le

/-- Where a memory holds the encoding of an instruction, that instruction is decoded. -/
theorem instruction_of_holds {m : Memory 256} {i : Instruction} (hi : i.WellFormed)
    (h : m.Holds address.toUInt8 i.encode) (hfits : address + i.length ≤ 256) :
    (instruction m.read address).result = .ok i := by
  rw [(Ends.complete hi (gives_of_holds h (i.length_encode ▸ hfits))).instruction_eq]

/-! ## Decoding and encoding -/

/-- **Decoding reads the bytes of one instruction and no others.**  It asks for addresses in a row, and
for none behind one at which its source fails; then it fails in the same way.  A first byte that is no
opcode is the only one asked for, and the error names it.  Behind an opcode, decoding succeeds unless
the source fails.  What it gives has as many bytes as were asked for: the operation that the first of them
is the opcode of, and the operands in the order of the others.  So the answer depends on the bytes
asked for and on nothing else, and it determines them: they are its encoding, and a source that gives
this encoding anywhere is decoded to it. -/
theorem instruction_reads_encoding (fetch : Fetch) (address : Nat) :
    let d := instruction fetch address
    (∃ n, 0 < n ∧ n ≤ 3 ∧ d.fetched = List.range' address n) ∧
    (∀ a ∈ d.fetched, ∀ e, fetch a = .error e →
      d.fetched.getLast? = some a ∧ d.result = .error (.memory e)) ∧
    (∀ b, fetch address = .ok b → Operation.ofOpcode? b = none →
      d.fetched = [address] ∧
      d.result = .error (if b.toNat.testBit 5 then .unsupportedOperation b address
        else .unknownInstruction b address)) ∧
    (∀ b op, fetch address = .ok b → Operation.ofOpcode? b = some op →
      (∀ a ∈ d.fetched, ∀ e, fetch a ≠ .error e) → ∃ i, d.result = .ok i) ∧
    (∀ i, d.result = .ok i →
      d.fetched.length = i.length ∧
      (∃ b, fetch address = .ok b ∧ Operation.ofOpcode? b = some i.operation) ∧
      d.fetched.tail.map fetch = i.operands.map .ok) ∧
    (∀ fetch' : Fetch, (∀ a ∈ d.fetched, fetch' a = fetch a) → instruction fetch' address = d) ∧
    (∀ i, d.result = .ok i → ∀ (fetch' : Fetch) (address' : Nat),
      let d' := instruction fetch' address'
      d'.result = .ok i → d'.fetched.map fetch' = d.fetched.map fetch) ∧
    (∀ i, d.result = .ok i → d.fetched.map fetch = i.encode.map .ok ∧
      ∀ (fetch' : Fetch) (address' : Nat),
        (List.range' address' i.encode.length).map fetch' = i.encode.map .ok →
          (instruction fetch' address').result = .ok i) := by
  intro d
  have hends : Ends fetch address d := ends_instruction fetch address
  refine ⟨hends.fetched_eq, fun a ha e he => hends.of_fails ha he, fun b hb hnone => ?_,
    fun b op hb hop hgiven => hends.exists_ok hb hop hgiven, fun i hi => ?_,
    fun fetch' hsame => (hends.congr hsame).instruction_eq, fun i hi fetch' address' hi' => ?_,
    fun i hi => ⟨hends.map_fetched hi, fun fetch' address' hgives' => ?_⟩⟩
  · have hd : d = _ := (Ends.unknown hb hnone).instruction_eq
    rw [hd]
    exact ⟨rfl, rfl⟩
  · obtain ⟨-, hgives, hfetched⟩ := hends.of_ok hi
    obtain ⟨hopcode, hoperands⟩ := gives_cons.mp hgives
    rw [hfetched, List.length_range']
    refine ⟨rfl, ⟨_, hopcode, Operation.ofOpcode?_opcode _⟩, ?_⟩
    rw [List.tail_range', Instruction.length, Nat.add_sub_cancel_left]
    exact hoperands
  · have hends' := ends_instruction fetch' address'
    exact (hends'.map_fetched hi').trans (hends.map_fetched hi).symm
  · obtain ⟨hwell, -, -⟩ := hends.of_ok hi
    rw [(Ends.complete hwell hgives').instruction_eq]

/-- An instruction of two bytes, a byte that is no opcode, and an instruction that the end of its memory
cuts off.  The first is decoded alike where nothing lies behind it. -/
theorem instruction_reads_encoding_four_cells :
    let fetch : Fetch := (⟨#v[0x65, 0xA3, 0x82, 1]⟩ : Memory 4).read
    let other : Fetch := (⟨#v[0x65, 0xA3]⟩ : Memory 2).read
    ((instruction fetch 0).result = .ok (.alu .inc 0xA3 none) ∧
      (instruction fetch 0).fetched.map fetch = [.ok 0x65, .ok 0xA3]) ∧
    ((∀ a ∈ (instruction fetch 0).fetched, other a = fetch a) ∧
      instruction other 0 = instruction fetch 0) ∧
    ((fetch 1 = .ok 0xA3 ∧ Operation.ofOpcode? 0xA3 = none) ∧
      (instruction fetch 1).fetched = [1] ∧
      (instruction fetch 1).result = .error (.unsupportedOperation 0xA3 1)) ∧
    ((4 ∈ (instruction fetch 2).fetched ∧ fetch 4 = .error (.outOfBounds 4 4)) ∧
      (instruction fetch 2).result = .error (.memory (.outOfBounds 4 4))) := by
  intro fetch other
  obtain ⟨-, -, -, -, -, hagrees, -, hencoded⟩ := instruction_reads_encoding fetch 0
  obtain ⟨-, -, hunknown, -⟩ := instruction_reads_encoding fetch 1
  obtain ⟨-, hfails, -⟩ := instruction_reads_encoding fetch 2
  have hinc : (instruction fetch 0).result = .ok (.alu .inc 0xA3 none) := by decide
  have hsame : ∀ a ∈ (instruction fetch 0).fetched, other a = fetch a := by decide
  have hbyte : fetch 1 = .ok 0xA3 := by decide
  have hnone : Operation.ofOpcode? 0xA3 = none := by decide
  have hasked : 4 ∈ (instruction fetch 2).fetched := by decide
  have herror : fetch 4 = .error (.outOfBounds 4 4) := by decide
  exact ⟨⟨hinc, (hencoded _ hinc).1⟩, ⟨hsame, hagrees other hsame⟩,
    ⟨⟨hbyte, hnone⟩, hunknown _ hbyte hnone⟩, ⟨hasked, herror⟩, (hfails 4 hasked _ herror).2⟩

end Decoding

end LS8
