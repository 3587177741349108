import ByteMachine.Instruction

namespace ByteMachine

/-- An entry for every opcode, empty unless an instruction is registered under it. -/
structure Dispatch where
  entries : Vector (Option Instruction) 256

namespace Dispatch

def empty : Dispatch :=
  ⟨Vector.replicate 256 none⟩

def register (d : Dispatch) (i : Instruction) : Dispatch :=
  have : i.opcode.toNat < 256 := i.opcode.toNat_lt
  ⟨d.entries.set i.opcode.toNat (some i)⟩

def get? (d : Dispatch) (opcode : UInt8) : Option Instruction :=
  have : opcode.toNat < 256 := opcode.toNat_lt
  d.entries[opcode.toNat]

def registered : List Instruction :=
  [.halt, .loadImmediate, .print, .push, .pop, .call, .ret, .jump, .jumpIfEqual, .jumpIfNotEqual,
    .add, .sub, .mul, .div, .compare]

def table : Dispatch :=
  registered.foldl register empty

theorem get?_empty (opcode : UInt8) : empty.get? opcode = none :=
  Vector.getElem_replicate _

theorem get?_register (d : Dispatch) (i : Instruction) (opcode : UInt8) :
    (d.register i).get? opcode = if i.opcode = opcode then some i else d.get? opcode := by
  simp only [get?, register, Vector.getElem_set, UInt8.toNat_inj]

theorem get?_foldl_register (is : List Instruction) (d : Dispatch) (opcode : UInt8) :
    (is.foldl register d).get? opcode =
      (is.reverse.find? (·.opcode == opcode)).or (d.get? opcode) := by
  induction is generalizing d with
  | nil => rfl
  | cons i is ih =>
    rw [List.foldl_cons, ih, get?_register, List.reverse_cons, List.find?_append, Option.or_assoc,
      List.find?_singleton]
    by_cases h : i.opcode = opcode <;> simp [h]

/-- Dispatch by the array is the search through the instructions. -/
theorem get?_table (opcode : UInt8) : table.get? opcode = Instruction.ofOpcode? opcode := by
  have hmem (i : Instruction) : i ∈ registered.reverse := by cases i <;> decide
  rw [table, get?_foldl_register, get?_empty, Option.or_none, Instruction.find?_opcode hmem]

end Dispatch

end ByteMachine
