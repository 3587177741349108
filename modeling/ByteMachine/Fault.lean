import ByteMachine.ProgramError
import ByteMachine.Text.Numeral

namespace ByteMachine

open Text

inductive Fault
  | outOfRangeAddress (address : Nat)
  | outOfRangeRegister (index : UInt8)
  | unknownOpcode (opcode : UInt8) (pc : Nat)
  | divisionByZero
  | unsupportedOperation (opcode : UInt8)
  | stepLimitExceeded (limit : Nat)
  | load (error : ProgramError)
  | output
  deriving DecidableEq

def Fault.message : Fault → String
  | .outOfRangeAddress address =>
    s!"memory address {Numeral.hexadecimal address} is outside 0x00..=0xff"
  | .outOfRangeRegister index => s!"register index {index.toNat} is outside R0..=R7"
  | .unknownOpcode opcode pc =>
    s!"unknown opcode {Numeral.binary opcode.toNat} at pc {Numeral.hexadecimal pc}"
  | .divisionByZero => "division by zero"
  | .unsupportedOperation opcode => s!"opcode {Numeral.binary opcode.toNat} is not an alu operation"
  | .stepLimitExceeded limit => s!"stopped after {limit} steps without halting"
  | .load error => error.message
  | .output => "failed to write output"

end ByteMachine
