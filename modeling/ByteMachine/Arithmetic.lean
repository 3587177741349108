import ByteMachine.Instruction
import ByteMachine.Registers

namespace ByteMachine

inductive Arithmetic
  | add
  | sub
  | mul
  | div
  | compare
  deriving DecidableEq

inductive Arithmetic.Result
  | register (value : UInt8)
  | flags (value : UInt8)
  deriving DecidableEq

namespace Arithmetic

def ofInstruction? : Instruction → Option Arithmetic
  | .add => some add
  | .sub => some sub
  | .mul => some mul
  | .div => some div
  | .compare => some compare
  | _ => none

def ofOpcode (opcode : UInt8) : Except Fault Arithmetic :=
  match (Instruction.ofOpcode? opcode).bind ofInstruction? with
  | some op => .ok op
  | none => .error (.unsupportedOperation opcode)

def comparison (a b : UInt8) : UInt8 :=
  if a = b then Flags.equal else if a < b then Flags.less else Flags.greater

def compute : Arithmetic → UInt8 → UInt8 → Except Fault Result
  | add, a, b => .ok (.register (a + b))
  | sub, a, b => .ok (.register (a - b))
  | mul, a, b => .ok (.register (a * b))
  | div, a, b => if b = 0 then .error .divisionByZero else .ok (.register (a / b))
  | compare, a, b => .ok (.flags (comparison a b))

end Arithmetic

end ByteMachine
