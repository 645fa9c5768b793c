import LS8.Processor.Stack

/-!
# Steps

One step of a running processor reports a snapshot if it is set to, decodes the instruction at the
program counter, carries it out, and moves the program counter.  A halted processor takes no steps.

`execute` does the instruction's own work and says what comes next; `follow` is the only place where
the program counter, the status and the count of steps change.  So a step that fails leaves these
three as they were, whatever else the instruction had already done.  `step_of_running` spells a step
out as decoding, execution and the move, case by case.
-/

namespace LS8.Processor

/-- Where a program goes on after an instruction. -/
inductive Continuation
  | next
  | jump (address : UInt8)
  | halt
  deriving DecidableEq, Repr

/-- The address of the instruction behind a call, which has to fit into a byte. -/
def returnAddress (p : Processor) : Except MemoryError UInt8 :=
  let address := p.counter + 2
  if address < 256 then .ok address.toUInt8 else .error (.outOfBounds address 256)

/-- A jump to the address in a register. -/
def jumpTo (index : UInt8) : Transition Processor Fault Continuation := do
  return .jump (← register index)

/-- Does the work of an instruction. -/
def execute : Instruction → Transition Processor Fault Continuation
  | .nop => return .next
  | .halt => return .halt
  | .loadImmediate reg value => do
    setRegister reg value
    return .next
  | .print reg => do
    print (← register reg)
    return .next
  | .alu op reg other => do
    let a ← register reg
    let b ← match other with
      | some other => register other
      | none => pure 0
    match op.eval a b with
    | .value v => setRegister reg v
    | .flags flags => modify fun p => { p with flags }
    return .next
  | .push reg => do
    pushRegister reg
    return .next
  | .pop reg => do
    popInto reg
    return .next
  | .call reg => do
    let p ← get
    let address ← Transition.ofExcept (p.returnAddress.mapError .memory)
    pushByte address
    jumpTo reg
  | .ret reg => do
    popInto reg
    jumpTo reg
  | .jump reg => jumpTo reg
  | .jumpIfEqual reg => do
    let p ← get
    if p.flags.isEqual then jumpTo reg else return .next
  | .jumpIfNotEqual reg => do
    let p ← get
    if p.flags.isEqual then return .next else jumpTo reg

/-- Goes on from an instruction that has been carried out, and counts it. -/
def follow (p : Processor) (i : Instruction) : Continuation → Processor
  | .next => { p with counter := p.counter + i.length, steps := p.steps + 1 }
  | .jump address => { p with counter := address.toNat, steps := p.steps + 1 }
  | .halt => { p with status := .halted, steps := p.steps + 1 }

/-- Takes one step, and gives the status after it. -/
def step : Transition Processor Fault Status := do
  let p ← get
  match p.status with
  | .halted => return .halted
  | .running =>
    if p.tracing then
      Transition.report (.traced p.snapshot)
    let i ← (decodeAt p.memory.read p.counter).mapError .decode
    let continuation ← execute i
    modify fun p => p.follow i continuation
    return (← get).status

/-- The events with which a step begins. -/
def announcement (p : Processor) : List Event :=
  if p.tracing then [.traced p.snapshot] else []

theorem step_of_halted {p : Processor} (h : p.status = .halted) :
    step p = ⟨.ok .halted, p, []⟩ := by
  simp [step, Transition.bind_apply, h]

/-- A step of a running processor fails where decoding or execution fails, and in the state that
the failure left behind. -/
theorem step_of_running {p : Processor} (h : p.status = .running) :
    step p =
      match (Decoding.instruction p.memory.read p.counter).result with
      | .error e => ⟨.error (.decode e), p, p.announcement⟩
      | .ok i =>
        match execute i p with
        | ⟨.error e, p', log⟩ => ⟨.error e, p', p.announcement ++ .decoded p.counter i :: log⟩
        | ⟨.ok k, p', log⟩ =>
          ⟨.ok (p'.follow i k).status, p'.follow i k,
            p.announcement ++ .decoded p.counter i :: log⟩ := by
  cases hd : (Decoding.instruction p.memory.read p.counter).result with
  | error e =>
    cases ht : p.tracing <;>
      simp [step, announcement, decodeAt, Transition.bind_apply, Transition.mapError, h, ht, hd]
  | ok i =>
    rcases hx : execute i p with ⟨e | k, p', log⟩ <;> cases ht : p.tracing <;>
      simp [step, announcement, decodeAt, Transition.bind_apply, Transition.mapError, Except.map,
        h, ht, hd, hx]

end LS8.Processor
