namespace ByteMachine

/-- The number of operand bytes behind an opcode, from its two top bits. -/
def operandCount (opcode : UInt8) : Nat :=
  (opcode >>> 6).toNat

inductive Slot
  | register
  | immediate
  deriving DecidableEq

inductive Instruction
  | halt
  | ret
  | push
  | pop
  | print
  | call
  | jump
  | jumpIfEqual
  | jumpIfNotEqual
  | loadImmediate
  | add
  | sub
  | mul
  | div
  | compare
  deriving DecidableEq

namespace Instruction

def all : List Instruction :=
  [halt, ret, push, pop, print, call, jump, jumpIfEqual, jumpIfNotEqual, loadImmediate,
    add, sub, mul, div, compare]

def opcode : Instruction → UInt8
  | halt => 0x01
  | ret => 0x11
  | push => 0x45
  | pop => 0x46
  | print => 0x47
  | call => 0x50
  | jump => 0x54
  | jumpIfEqual => 0x55
  | jumpIfNotEqual => 0x56
  | loadImmediate => 0x82
  | add => 0xA0
  | sub => 0xA1
  | mul => 0xA2
  | div => 0xA3
  | compare => 0xA7

def mnemonic : Instruction → String
  | halt => "HLT"
  | ret => "RET"
  | push => "PUSH"
  | pop => "POP"
  | print => "PRN"
  | call => "CALL"
  | jump => "JMP"
  | jumpIfEqual => "JEQ"
  | jumpIfNotEqual => "JNE"
  | loadImmediate => "LDI"
  | add => "ADD"
  | sub => "SUB"
  | mul => "MUL"
  | div => "DIV"
  | compare => "CMP"

def slots : Instruction → List Slot
  | halt | ret => []
  | push | pop | print | call | jump | jumpIfEqual | jumpIfNotEqual => [.register]
  | loadImmediate => [.register, .immediate]
  | add | sub | mul | div | compare => [.register, .register]

def ofOpcode? (opcode : UInt8) : Option Instruction :=
  all.find? fun i ↦ i.opcode == opcode

/-- Mnemonics are looked up as they are spelled, in upper case. -/
def ofMnemonic? (mnemonic : String) : Option Instruction :=
  all.find? fun i ↦ i.mnemonic == mnemonic

theorem mem_all (i : Instruction) : i ∈ all := by
  cases i <;> decide

theorem length_slots (i : Instruction) : i.slots.length = operandCount i.opcode := by
  cases i <;> rfl

@[simp]
theorem ofOpcode?_opcode (i : Instruction) : ofOpcode? i.opcode = some i := by
  cases i <;> rfl

theorem opcode_eq_of_ofOpcode? {b : UInt8} {i : Instruction} (h : ofOpcode? b = some i) :
    i.opcode = b := by
  simpa using List.find?_some h

theorem opcode_injective : Function.Injective opcode := by
  intro i j h
  have hi := i.ofOpcode?_opcode
  rw [h, j.ofOpcode?_opcode] at hi
  exact (Option.some.inj hi).symm

theorem find?_opcode {is : List Instruction} (h : ∀ i, i ∈ is) (b : UInt8) :
    is.find? (fun i ↦ i.opcode == b) = ofOpcode? b := by
  cases hi : is.find? fun i ↦ i.opcode == b with
  | some i =>
    have hb : i.opcode = b := by simpa using List.find?_some hi
    rw [← hb, ofOpcode?_opcode]
  | none =>
    cases hj : ofOpcode? b with
    | none => rfl
    | some j =>
      have hne := List.find?_eq_none.mp hi j (h j)
      exact absurd (beq_iff_eq.mpr (opcode_eq_of_ofOpcode? hj)) hne

end Instruction

end ByteMachine
