import LS8.Alu
import LS8.Opcode

/-!
# The instruction set

An `Operation` is what an opcode byte names: one of the twelve operations of the arithmetic unit or
one of eleven others.  An `Instruction` is an operation together with the operand bytes that it
keeps, which name registers or, in the second operand of `LDI`, give a value.

`Operation.opcode` is the one table of opcode bytes; reading a byte (`ofOpcode?`) searches that
table, so that the two directions cannot drift apart (`ofOpcode?_eq_some_iff`).  The operand count
is not a second table either: it is what the opcode's own marks announce, and `length_withOperands`
says that instructions keep to it.

An operand byte may name a register that does not exist.  Such an instruction is a value like any
other, with its encoding and its assembly text; only executing it fails.  The same holds of an
arithmetic instruction whose second register is missing or in excess: decoding never gives one, but
its text and length are still defined by the operands it has.
-/

namespace LS8

/-! ## Operations -/

/-- What an opcode byte asks for. -/
inductive Operation
  | nop
  | halt
  | loadImmediate
  | print
  /-- Have the arithmetic unit work on registers. -/
  | alu (op : AluOperation)
  | push
  | pop
  /-- Push the address of the next instruction and jump to the address in a register. -/
  | call
  /-- Pop into a register and jump to the address in it. -/
  | ret
  | jump
  | jumpIfEqual
  | jumpIfNotEqual
  deriving DecidableEq, Repr

/-- The opcode byte of an operation of the arithmetic unit. -/
def AluOperation.opcode : AluOperation → UInt8
  | .add => 0b10100000
  | .sub => 0b10100001
  | .mul => 0b10100010
  | .inc => 0b01100101
  | .dec => 0b01100110
  | .cmp => 0b10100111
  | .and => 0b10101000
  | .not => 0b01101001
  | .or => 0b10101010
  | .xor => 0b10101011
  | .shl => 0b10101100
  | .shr => 0b10101101

/-- The operation of the arithmetic unit with this opcode. -/
def AluOperation.ofOpcode? (byte : UInt8) : Option AluOperation :=
  all.find? (·.opcode == byte)

namespace Operation

/-- Every operation, once. -/
def all : List Operation :=
  [.nop, .halt, .loadImmediate, .print, .push, .pop, .call, .ret, .jump, .jumpIfEqual,
    .jumpIfNotEqual] ++ AluOperation.all.map .alu

/-- The opcode byte of an operation. -/
def opcode : Operation → UInt8
  | .nop => 0b00000000
  | .halt => 0b00000001
  | .loadImmediate => 0b10000010
  | .print => 0b01000111
  | .alu op => op.opcode
  | .push => 0b01000101
  | .pop => 0b01000110
  | .call => 0b01010000
  | .ret => 0b01010001
  | .jump => 0b01010100
  | .jumpIfEqual => 0b01010101
  | .jumpIfNotEqual => 0b01010110

/-- The operation with this opcode, if there is one. -/
def ofOpcode? (byte : UInt8) : Option Operation :=
  all.find? (·.opcode == byte)

/-- The name of an operation in assembly text. -/
def mnemonic : Operation → String
  | .nop => "NOP"
  | .halt => "HLT"
  | .loadImmediate => "LDI"
  | .print => "PRN"
  | .alu op => op.mnemonic
  | .push => "PUSH"
  | .pop => "POP"
  | .call => "CALL"
  | .ret => "RET"
  | .jump => "JMP"
  | .jumpIfEqual => "JEQ"
  | .jumpIfNotEqual => "JNE"

/-- The number of operand bytes that the opcode announces. -/
def operandCount (op : Operation) : Nat := (Opcode.mk op.opcode).operandCount

/-- The operation that the arithmetic unit carries out, if it is one of its own. -/
def alu? : Operation → Option AluOperation
  | .alu op => some op
  | _ => none

theorem mem_all (op : Operation) : op ∈ all := by
  cases op with
  | alu a => cases a <;> simp [all, AluOperation.all]
  | _ => simp [all]

/-- No two operations share an opcode, so the search finds the one that was asked for. -/
@[simp] theorem ofOpcode?_opcode (op : Operation) : ofOpcode? op.opcode = some op := by
  cases op with
  | alu a => cases a <;> rfl
  | _ => rfl

theorem ofOpcode?_eq_some_iff {byte : UInt8} {op : Operation} :
    ofOpcode? byte = some op ↔ op.opcode = byte := by
  constructor
  · intro h
    simpa using List.find?_some h
  · rintro rfl
    exact ofOpcode?_opcode op

end Operation

/-! ## Instructions -/

/-- An operation with its operands. -/
inductive Instruction
  | nop
  | halt
  | loadImmediate (reg value : UInt8)
  | print (reg : UInt8)
  | alu (op : AluOperation) (reg : UInt8) (other : Option UInt8)
  | push (reg : UInt8)
  | pop (reg : UInt8)
  | call (reg : UInt8)
  | ret (reg : UInt8)
  | jump (reg : UInt8)
  | jumpIfEqual (reg : UInt8)
  | jumpIfNotEqual (reg : UInt8)
  deriving DecidableEq, Repr

/-- The instruction made of an operation and two operand bytes, of which it keeps as many as it has
a use for. -/
def Operation.withOperands (first second : UInt8) : Operation → Instruction
  | .nop => .nop
  | .halt => .halt
  | .loadImmediate => .loadImmediate first second
  | .print => .print first
  | .alu op => .alu op first (if op.isUnary then none else some second)
  | .push => .push first
  | .pop => .pop first
  | .call => .call first
  | .ret => .ret first
  | .jump => .jump first
  | .jumpIfEqual => .jumpIfEqual first
  | .jumpIfNotEqual => .jumpIfNotEqual first

namespace Instruction

/-- The operation of an instruction. -/
def operation : Instruction → Operation
  | .nop => .nop
  | .halt => .halt
  | .loadImmediate _ _ => .loadImmediate
  | .print _ => .print
  | .alu op _ _ => .alu op
  | .push _ => .push
  | .pop _ => .pop
  | .call _ => .call
  | .ret _ => .ret
  | .jump _ => .jump
  | .jumpIfEqual _ => .jumpIfEqual
  | .jumpIfNotEqual _ => .jumpIfNotEqual

/-- The operand bytes of an instruction, in the order of memory. -/
def operands : Instruction → List UInt8
  | .nop | .halt => []
  | .loadImmediate reg value => [reg, value]
  | .alu _ reg (some other) => [reg, other]
  | .alu _ reg none => [reg]
  | .print reg | .push reg | .pop reg | .call reg | .ret reg | .jump reg | .jumpIfEqual reg
  | .jumpIfNotEqual reg => [reg]

/-- The bytes of an instruction in memory. -/
def encode (i : Instruction) : List UInt8 := i.operation.opcode :: i.operands

/-- The number of bytes that an instruction takes up. -/
def length (i : Instruction) : Nat := 1 + i.operands.length

theorem length_encode (i : Instruction) : i.encode.length = i.length := by
  simp only [encode, length, List.length_cons]
  omega

@[simp] theorem operation_withOperands (op : Operation) (first second : UInt8) :
    (op.withOperands first second).operation = op := by
  cases op <;> rfl

/-- An instruction keeps as many operand bytes as its opcode announces. -/
theorem length_withOperands (op : Operation) (first second : UInt8) :
    (op.withOperands first second).length = 1 + op.operandCount := by
  cases op with
  | alu a => cases a <;> rfl
  | _ => rfl

/-! ## Assembly text -/

/-- The name of a register in assembly text and in messages. -/
def registerName (reg : UInt8) : String := "R" ++ Numeral.decimal reg.toNat

/-- The operands of an instruction as they are written: a register by its name, a value in
hexadecimal. -/
def operandTexts : Instruction → List String
  | .loadImmediate reg value => [registerName reg, Numeral.hex2 value.toNat]
  | i => i.operands.map registerName

/-- The instruction in assembly text: the mnemonic, then the operands with commas between them. -/
def text (i : Instruction) : String :=
  match i.operandTexts with
  | [] => i.operation.mnemonic
  | texts => i.operation.mnemonic ++ " " ++ ", ".intercalate texts

end Instruction

end LS8
