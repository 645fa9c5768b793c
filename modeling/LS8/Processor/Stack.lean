import LS8.Processor.Basic

/-!
# The stack

The stack lies in the processor's memory and grows towards lower addresses.  The stack pointer holds
the address of its top.  Addresses wrap around at both ends of memory, so no push and no pop can
miss a cell.

Nothing counts the elements: the stack is empty when the stack pointer stands at its base.  The
order of the parts of an operation shows wherever the stack pointer is an operand as well.  A push
moves the stack pointer before it reads the register, so that pushing the stack pointer stores its
new value; a pop writes the register before it moves the stack pointer, so that popping into the
stack pointer leaves it one past the value popped.

Popping from an empty stack is no failure.  It is reported, and nothing else happens.
-/

namespace LS8.Processor

/-- Moves the stack pointer to the next free cell and gives its address. -/
def growStack : Transition Processor Fault UInt8 := do
  let p ← get
  let top := p.stackPointer - 1
  set (p.withStackPointer top)
  return top

/-- Stores a byte in a cell. -/
def store (address value : UInt8) : Transition Processor Fault Unit :=
  modify fun p => { p with memory := p.memory.withCell address value }

/-- Pushes a byte. -/
def pushByte (value : UInt8) : Transition Processor Fault Unit := do
  let top ← growStack
  store top value
  Transition.report (.bytePushed value top)

/-- Pushes the contents of a register. -/
def pushRegister (index : UInt8) : Transition Processor Fault Unit := do
  let top ← growStack
  let value ← register index
  store top value
  Transition.report (.registerPushed index value top)

/-- Pops into a register. -/
def popInto (index : UInt8) : Transition Processor Fault Unit := do
  let p ← get
  let top := p.stackPointer
  if top = stackBase then
    Transition.report (.stackEmpty p.counter index)
  else
    let value := p.memory.cell top
    setRegister index value
    modify fun p => p.withStackPointer (p.stackPointer + 1)
    Transition.report (.popped value top index)

end LS8.Processor
