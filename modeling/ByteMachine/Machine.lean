import ByteMachine.Dispatch
import ByteMachine.Memory
import ByteMachine.Registers

namespace ByteMachine

@[ext]
structure Machine where
  memory : Memory
  registers : Registers
  pc : Nat
  deriving DecidableEq

structure Fetched where
  pc : Nat
  opcode : UInt8
  operands : List UInt8
  deriving DecidableEq

/-- An operand that is not there reads as zero. -/
def Fetched.operand (f : Fetched) (i : Nat) : UInt8 :=
  f.operands.getD i 0

def Fetched.next (f : Fetched) : Nat :=
  f.pc + 1 + f.operands.length

open Text

namespace Machine

def initial (stackTop : UInt8) : Machine :=
  ⟨Memory.blank, Registers.initial stackTop, 0⟩

/-- Takes the instruction at the program counter from memory, if its opcode is assigned and all its
operand bytes lie in memory. -/
def fetch (m : Machine) : Except Fault (Instruction × Fetched) := do
  let opcode ← m.memory.read m.pc
  match Dispatch.table.get? opcode with
  | none => .error (.unknownOpcode opcode m.pc)
  | some instruction =>
    let operands ← (List.range (operandCount opcode)).mapM fun i ↦ m.memory.read (m.pc + 1 + i)
    return (instruction, ⟨m.pc, opcode, operands⟩)

def cellText (m : Machine) (address : Nat) : List Char :=
  match m.memory.read address with
  | .ok value => Numeral.upperHexadecimal value.toNat
  | .error _ => ['-', '-']

/-- One line with the program counter, the three cells from there on and the registers. -/
def traceLine (m : Machine) : String :=
  let cells := [m.cellText m.pc, m.cellText (m.pc + 1), m.cellText (m.pc + 2)]
  let registers := m.registers.general.toList.map fun value ↦ Numeral.upperHexadecimal value.toNat
  let fields := Numeral.upperHexadecimal m.pc :: ['|'] :: cells ++ ['|'] :: registers
  "TRACE: " ++ String.ofList ([' '].intercalate fields)

end Machine

end ByteMachine
