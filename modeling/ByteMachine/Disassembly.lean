import ByteMachine.Fault
import ByteMachine.Instruction

namespace ByteMachine

open Text

def Slot.text : Slot → UInt8 → List Char
  | .register, value => 'R' :: Numeral.decimal value.toNat
  | .immediate, value => Numeral.decimal value.toNat

namespace Instruction

/-- The texts of the operands, in order; `address` is the place of the first of them. -/
def operandTexts (address : Nat) : List Slot → List UInt8 → Except Fault (List (List Char))
  | [], _ => .ok []
  | _ :: _, [] => .error (.outOfRangeAddress address)
  | slot :: slots, value :: values => do
    let texts ← operandTexts (address + 1) slots values
    return slot.text value :: texts

def text (i : Instruction) (operands : List (List Char)) : List Char :=
  match operands with
  | [] => i.mnemonic.toList
  | _ => i.mnemonic.toList ++ ' ' :: [','].intercalate operands

end Instruction

def disassemble : List UInt8 → Except Fault String
  | [] => .error (.outOfRangeAddress 0)
  | opcode :: rest =>
    match Instruction.ofOpcode? opcode with
    | none => .error (.unknownOpcode opcode 0)
    | some i => return String.ofList (i.text (← Instruction.operandTexts 1 i.slots rest))

end ByteMachine
