import ByteMachine.Proofs.Step
import Mathlib.Logic.Function.Basic

namespace ByteMachine.InstructionTable

/-- A machine as a program sees it. A byte names a cell, a number below eight a register. -/
structure State where
  memory : UInt8 → UInt8
  registers : Fin 8 → UInt8
  flags : UInt8
  pc : Nat
  running : Bool

namespace State

variable (s : State)

def code (address : Nat) : UInt8 :=
  s.memory (UInt8.ofNat address)

def first : UInt8 :=
  s.code (s.pc + 1)

def second : UInt8 :=
  s.code (s.pc + 2)

def register (index : UInt8) : UInt8 :=
  s.registers (Fin.ofNat 8 index.toNat)

def stackPointer : UInt8 :=
  s.registers 7

def setRegister (index value : UInt8) : State :=
  { s with registers := Function.update s.registers (Fin.ofNat 8 index.toNat) value }

def advance (n : Nat) : State :=
  { s with pc := s.pc + n, running := true }

def goto (address : UInt8) : State :=
  { s with pc := address.toNat, running := true }

def pushed (value : UInt8) : State :=
  { s with
    memory := Function.update s.memory (s.stackPointer - 1) value
    registers := Function.update s.registers 7 (s.stackPointer - 1) }

def popped : State :=
  { s with registers := Function.update s.registers 7 (s.stackPointer + 1) }

@[simp]
theorem stackPointer_pushed (value : UInt8) :
    (s.pushed value).stackPointer = s.stackPointer - 1 :=
  Function.update_self (7 : Fin 8) _ s.registers

@[simp]
theorem stackPointer_popped : s.popped.stackPointer = s.stackPointer + 1 :=
  Function.update_self (7 : Fin 8) _ s.registers

theorem stackPointer_setRegister {index : UInt8} (hi : index.toNat < 8) (hne : index ≠ 7)
    (value : UInt8) : (s.setRegister index value).stackPointer = s.stackPointer := by
  have hk : (7 : Fin 8) ≠ Fin.ofNat 8 index.toNat := by
    intro he
    have hv := congrArg Fin.val he
    rw [Fin.val_ofNat, Nat.mod_eq_of_lt hi] at hv
    exact hne (UInt8.toNat_inj.mp hv.symm)
  exact Function.update_of_ne hk _ _

end State

/-- A row of the table. Its rules look at the state before the instruction. -/
structure Row where
  opcode : UInt8
  operands : List Slot
  effect : State → State
  refusal : State → Option Fault := fun _ ↦ none
  printed : State → Option UInt8 := fun _ ↦ none

def arithmetic (opcode : UInt8) (op : Nat → Nat → Nat) : Row where
  opcode := opcode
  operands := [.register, .register]
  effect s := (s.setRegister s.first
    (UInt8.ofNat (op (s.register s.first).toNat (s.register s.second).toNat))).advance 3

def branch (opcode : UInt8) (taken : State → Bool) : Row where
  opcode := opcode
  operands := [.register]
  effect s := if taken s then s.goto (s.register s.first) else s.advance 2

theorem effect_branch (opcode : UInt8) (taken : State → Bool) (s : State) :
    (branch opcode taken).effect s = s.goto (s.register s.first) ∨
      (branch opcode taken).effect s = s.advance 2 := by
  simp only [branch]
  cases taken s with
  | true => exact .inl rfl
  | false => exact .inr rfl

def row : Instruction → Row
  | .halt => { opcode := 0b00000001, operands := [], effect := fun s ↦ { s with running := false } }
  | .loadImmediate =>
    { opcode := 0b10000010
      operands := [.register, .immediate]
      effect := fun s ↦ (s.setRegister s.first s.second).advance 3 }
  | .mul => arithmetic 0b10100010 (· * ·)
  | .add => arithmetic 0b10100000 (· + ·)
  | .sub => arithmetic 0b10100001 fun a b ↦ 256 - b + a
  | .div =>
    { arithmetic 0b10100011 (· / ·) with
      refusal := fun s ↦ if s.register s.second = 0 then some .divisionByZero else none }
  | .compare =>
    { opcode := 0b10100111
      operands := [.register, .register]
      effect := fun s ↦
        { s with
          flags := match compare (s.register s.first).toNat (s.register s.second).toNat with
            | .eq => 0b001
            | .lt => 0b010
            | .gt => 0b011 }.advance 3 }
  | .print =>
    { opcode := 0b01000111
      operands := [.register]
      effect := fun s ↦ s.advance 2
      printed := fun s ↦ some (s.register s.first) }
  | .push =>
    { opcode := 0b01000101
      operands := [.register]
      effect := fun s ↦ (s.pushed (s.register s.first)).advance 2 }
  | .pop =>
    { opcode := 0b01000110
      operands := [.register]
      effect := fun s ↦ (s.popped.setRegister s.first (s.memory s.stackPointer)).advance 2 }
  | .call =>
    { opcode := 0b01010000
      operands := [.register]
      effect := fun s ↦ (s.pushed (UInt8.ofNat (s.pc + 2))).goto (s.register s.first)
      refusal := fun s ↦
        if 256 ≤ s.pc + 2 then some (.outOfRangeAddress (s.pc + 2)) else none }
  | .ret =>
    { opcode := 0b00010001
      operands := []
      effect := fun s ↦ s.popped.goto (s.memory s.stackPointer) }
  | .jump => branch 0b01010100 fun _ ↦ true
  | .jumpIfEqual => branch 0b01010101 fun s ↦ s.flags = 0b001
  | .jumpIfNotEqual => branch 0b01010110 fun s ↦ s.flags ≠ 0b001

theorem opcode_row (i : Instruction) : (row i).opcode = i.opcode := by
  cases i <;> rfl

theorem operands_row (i : Instruction) : (row i).operands = i.slots := by
  cases i <;> rfl

/-- The rows of the table from top to bottom. -/
def table : List Row :=
  [.halt, .loadImmediate, .mul, .add, .sub, .div, .compare, .print, .push, .pop, .call, .ret, .jump,
    .jumpIfEqual, .jumpIfNotEqual].map row

theorem find_row (b : UInt8) :
    table.find? (·.opcode == b) = (Instruction.ofOpcode? b).map row := by
  simp only [table, List.find?_map, Function.comp_def, opcode_row]
  rw [Instruction.find?_opcode]
  intro i
  cases i <;> decide

/-- The row of the next instruction, if there is one and its operand bytes lie in memory. -/
def State.fetch (s : State) : Except Fault Row :=
  if 256 ≤ s.pc then .error (.outOfRangeAddress s.pc)
  else match table.find? (·.opcode == s.code s.pc) with
    | none => .error (.unknownOpcode (s.code s.pc) s.pc)
    | some r =>
      if 256 < s.pc + 1 + r.operands.length then .error (.outOfRangeAddress 256) else .ok r

/-- What speaks against an instruction: its first register, its second, or else its own rule. -/
def Row.fault? (r : Row) (s : State) : Option Fault :=
  if r.operands[0]? = some .register ∧ 8 ≤ s.first.toNat then some (.outOfRangeRegister s.first)
  else if r.operands[1]? = some .register ∧ 8 ≤ s.second.toNat then
    some (.outOfRangeRegister s.second)
  else r.refusal s

theorem Row.of_fault?_eq_none {r : Row} {s : State} (h : r.fault? s = none) :
    (r.operands[0]? = some .register → s.first.toNat < 8) ∧
      (r.operands[1]? = some .register → s.second.toNat < 8) ∧ r.refusal s = none := by
  rw [fault?] at h
  split at h
  · cases h
  · next hfirst =>
    split at h
    · cases h
    · next hsecond =>
      exact ⟨fun ho ↦ Nat.not_le.mp fun hl ↦ hfirst ⟨ho, hl⟩,
        fun ho ↦ Nat.not_le.mp fun hl ↦ hsecond ⟨ho, hl⟩, h⟩

theorem Row.fault?_cases {r : Row} {s : State} {fault : Fault} (h : r.fault? s = some fault) :
    (∃ k, r.operands[k]? = some .register ∧ 8 ≤ (s.code (s.pc + 1 + k)).toNat ∧
      fault = .outOfRangeRegister (s.code (s.pc + 1 + k))) ∨ r.refusal s = some fault := by
  rw [fault?] at h
  split at h
  · next hr =>
    cases h
    exact .inl ⟨0, hr.1, hr.2, rfl⟩
  · split at h
    · next hr =>
      cases h
      exact .inl ⟨1, hr.1, hr.2, rfl⟩
    · exact .inr h

structure Verdict where
  result : Except Fault Bool
  state : State
  printed : Option UInt8

/-- What becomes of a state by a row. That the output does not accept a value is the last thing that
can fail. -/
def Row.verdict (r : Row) (accepts : UInt8 → Bool) (s : State) : Verdict :=
  match r.fault? s with
  | some fault => ⟨.error fault, s, none⟩
  | none =>
    if (r.printed s).all accepts then ⟨.ok (r.effect s).running, r.effect s, r.printed s⟩
    else ⟨.error .output, s, r.printed s⟩

section

variable {r : Row} {s : State} {accepts : UInt8 → Bool}

theorem Row.verdict_of_fault {fault : Fault} (h : r.fault? s = some fault) :
    r.verdict accepts s = ⟨.error fault, s, none⟩ := by
  rw [verdict, h]

theorem Row.verdict_of_accepted (h : r.fault? s = none)
    (ha : ∀ value, r.printed s = some value → accepts value) :
    r.verdict accepts s = ⟨.ok (r.effect s).running, r.effect s, r.printed s⟩ := by
  have hall : (r.printed s).all accepts = true := (Option.all_eq_true _ _).mpr ha
  simp only [verdict, h, hall, if_true]

theorem Row.verdict_of_not_accepted {value : UInt8} (h : r.fault? s = none)
    (hp : r.printed s = some value) (ha : ¬ accepts value) :
    r.verdict accepts s = ⟨.error .output, s, some value⟩ := by
  simp only [verdict, h, hp, Option.all_some, if_neg ha]

end

def State.step (accepts : UInt8 → Bool) (s : State) : Verdict :=
  match s.fetch with
  | .error fault => ⟨.error fault, s, none⟩
  | .ok r => r.verdict accepts s

def State.of (m : Machine) (running : Bool) : State where
  memory := m.memory.get
  registers i := m.registers.general[i]
  flags := m.registers.flags
  pc := m.pc
  running := running

end ByteMachine.InstructionTable
