import ByteMachine.Operation

namespace ByteMachine

inductive Flow
  | next
  | jump (address : Nat)
  | halt
  deriving DecidableEq

inductive Action
  | halt
  | loadImmediate
  | arithmetic
  | print
  | push
  | pop
  | call
  | ret
  | jump
  | jumpIfEqual
  | jumpIfNotEqual
  deriving DecidableEq

def Instruction.action : Instruction → Action
  | halt => .halt
  | ret => .ret
  | push => .push
  | pop => .pop
  | print => .print
  | call => .call
  | jump => .jump
  | jumpIfEqual => .jumpIfEqual
  | jumpIfNotEqual => .jumpIfNotEqual
  | loadImmediate => .loadImmediate
  | add | sub | mul | div | compare => .arithmetic

namespace Action

open Operation

def ofOpcode? (opcode : UInt8) : Option Action :=
  (Dispatch.table.get? opcode).map Instruction.action

/-- Carries an action out. A popped value may go to the stack pointer itself and then stays
there. -/
def perform (f : Fetched) : Action → Operation Flow
  | halt => return .halt
  | loadImmediate => do
    setRegister (f.operand 0) (f.operand 1)
    return .next
  | arithmetic => do
    let op ← answer (Arithmetic.ofOpcode f.opcode)
    combine op (f.operand 0) (f.operand 1)
    return .next
  | print => do
    let value ← register (f.operand 0)
    Operation.print value
    return .next
  | push => do
    let value ← register (f.operand 0)
    Operation.push value
    return .next
  | pop => do
    answer ((← get).machine.registers.check (f.operand 0))
    let value ← Operation.pop
    setRegister (f.operand 0) value
    return .next
  | call => do
    let target ← register (f.operand 0)
    let back := f.pc + 2
    unless back < 256 do throw (.outOfRangeAddress back)
    Operation.push (UInt8.ofNat back)
    return .jump target.toNat
  | ret => do
    let back ← Operation.pop
    return .jump back.toNat
  | jump => do
    let target ← register (f.operand 0)
    return .jump target.toNat
  | jumpIfEqual => do
    let target ← register (f.operand 0)
    return if (← get).machine.registers.flags = Flags.equal then .jump target.toNat else .next
  | jumpIfNotEqual => do
    let target ← register (f.operand 0)
    return if (← get).machine.registers.flags ≠ Flags.equal then .jump target.toNat else .next

end Action

end ByteMachine
