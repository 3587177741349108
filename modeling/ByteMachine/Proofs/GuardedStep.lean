import ByteMachine.Proofs.Step
import Mathlib.Algebra.Group.Nat.Defs

namespace ByteMachine

/-- The sum of two addresses, if even the smallest machine word holds it. -/
def sum? (a b : Nat) : Option Nat :=
  if a + b < 2 ^ 16 then some (a + b) else none

theorem sum?_eq_some {a b : Nat} (h : a + b < 2 ^ 16) : sum? a b = some (a + b) :=
  if_pos h

def Fetched.operand? (f : Fetched) (i : Nat) : Option UInt8 :=
  f.operands[i]?

def Fetched.next? (f : Fetched) : Option Nat := do
  sum? (← sum? f.pc 1) f.operands.length

namespace Machine

def slice? (m : Machine) (address : Nat) : Option (List UInt8) :=
  if address ≤ 256 then some (m.memory.cells.toList.drop address) else none

def fetch? (m : Machine) : Option (Except Fault (Instruction × Fetched)) :=
  match m.memory.read m.pc with
  | .error fault => some (.error fault)
  | .ok opcode =>
    match Dispatch.table.get? opcode with
    | none => some (.error (.unknownOpcode opcode m.pc))
    | some i => do
      let addresses ← (List.range (operandCount opcode)).mapM fun k ↦ sum? m.pc (k + 1)
      return (addresses.mapM m.memory.read).map fun operands ↦ (i, ⟨m.pc, opcode, operands⟩)

def trace? (m : Machine) : Option String := do
  let _ ← (List.range 3).mapM fun k ↦ sum? m.pc k
  let code ← m.slice? m.pc
  return m.traceLine ++ " " ++ (disassemble code).toOption.getD ""

end Machine

namespace Action

open Operation

def perform? (f : Fetched) : Action → Option (Operation Flow)
  | halt => some (return .halt)
  | loadImmediate => do
    let index ← f.operand? 0
    let value ← f.operand? 1
    return do
      setRegister index value
      return .next
  | arithmetic => do
    let first ← f.operand? 0
    let second ← f.operand? 1
    return do
      let op ← answer (Arithmetic.ofOpcode f.opcode)
      combine op first second
      return .next
  | print => do
    let index ← f.operand? 0
    return do
      let value ← register index
      Operation.print value
      return .next
  | push => do
    let index ← f.operand? 0
    return do
      let value ← register index
      Operation.push value
      return .next
  | pop => do
    let index ← f.operand? 0
    return do
      answer ((← get).machine.registers.check index)
      let value ← Operation.pop
      setRegister index value
      return .next
  | call => do
    let index ← f.operand? 0
    let back ← sum? f.pc 2
    return do
      let target ← register index
      unless back < 256 do throw (.outOfRangeAddress back)
      Operation.push (UInt8.ofNat back)
      return .jump target.toNat
  | ret => some do
    let back ← Operation.pop
    return .jump back.toNat
  | jump => do
    let index ← f.operand? 0
    return do
      let target ← register index
      return .jump target.toNat
  | jumpIfEqual => do
    let index ← f.operand? 0
    return do
      let target ← register index
      return if (← get).machine.registers.flags = Flags.equal then .jump target.toNat else .next
  | jumpIfNotEqual => do
    let index ← f.operand? 0
    return do
      let target ← register index
      return if (← get).machine.registers.flags ≠ Flags.equal then .jump target.toNat else .next

end Action

namespace Computer

def follow? (c : Computer) (f : Fetched) : Flow → Option Computer
  | .next => do
    let pc ← f.next?
    return { c with machine := { c.machine with pc }, status := .running }
  | .jump address => some { c with machine := { c.machine with pc := address }, status := .running }
  | .halt => some { c with status := .halted }

/-- A step with its guards. The line that tells of it is put together even if no log keeps it. -/
def step? (c : Computer) : Option (Outcome Bool) := do
  match ← c.machine.fetch? with
  | .error fault => return ⟨.error fault, c⟩
  | .ok (instruction, f) =>
    let _ ← c.machine.trace?
    let operation ← instruction.action.perform? f
    match operation.outcome (c.tell (.executing c.machine)) with
    | ⟨.error fault, c⟩ => return ⟨.error fault, c⟩
    | ⟨.ok flow, c⟩ =>
      let c ← (c.count f.opcode).follow? f flow
      return ⟨.ok (c.status = .running), c⟩

end Computer

section

variable {m : Machine} {i : Instruction}

theorem Machine.fetch?_eq_some (m : Machine) : m.fetch? = some m.fetch := by
  rw [fetch?, fetch]
  cases hr : m.memory.read m.pc with
  | error fault => rfl
  | ok opcode =>
    dsimp only [bind, Except.bind]
    cases Dispatch.table.get? opcode with
    | none => rfl
    | some i =>
      obtain ⟨hpc, -⟩ := cell_of_read hr
      have hc : operandCount opcode < 256 := UInt8.toNat_lt _
      dsimp only
      rw [mapM_eq_some_map fun k hk ↦ sum?_eq_some (by rw [List.mem_range] at hk; omega)]
      have hread : (m.memory.read ∘ fun k ↦ m.pc + (k + 1)) =
          fun k ↦ m.memory.read (m.pc + 1 + k) := by
        funext k
        rw [Function.comp_apply, Nat.add_right_comm, Nat.add_assoc]
      rw [Option.bind_some, List.mapM_map, hread]
      cases (List.range (operandCount opcode)).mapM fun k ↦ m.memory.read (m.pc + 1 + k) with
      | error fault => rfl
      | ok operands => rfl

theorem Machine.trace?_eq_some (h : m.pc ≤ 256) :
    m.trace? = some (Event.executing m).message := by
  rw [trace?, mapM_eq_some_map fun k hk ↦ sum?_eq_some (by rw [List.mem_range] at hk; omega),
    slice?, if_pos h]
  rfl

theorem Fetched.next?_eq_some {f : Fetched} (h : f.next ≤ 256) : f.next? = some f.next := by
  rw [next] at h
  rw [next?, sum?_eq_some (by omega)]
  exact sum?_eq_some (by omega)

theorem Machine.operand?_fetched {k : Nat} (h : k < i.slots.length) :
    (m.fetched i).operand? k = some ((m.fetched i).operand k) := by
  simp [Fetched.operand?, Fetched.operand, fetched, h]

theorem Action.perform?_eq_some (h : m.pc < 256) :
    i.action.perform? (m.fetched i) = some (i.action.perform (m.fetched i)) := by
  have hback : sum? (m.fetched i).pc 2 = some ((m.fetched i).pc + 2) := by
    have hpc : (m.fetched i).pc = m.pc := rfl
    exact sum?_eq_some (by omega)
  have hoperand : ∀ {k}, k < i.slots.length →
      (m.fetched i).operand? k = some ((m.fetched i).operand k) := fun h ↦
    Machine.operand?_fetched h
  cases i with
  | halt | ret => rfl
  | push | pop | print | jump | jumpIfEqual | jumpIfNotEqual =>
    dsimp only [Instruction.action, perform?]
    rw [hoperand (by decide)]
    rfl
  | call =>
    dsimp only [Instruction.action, perform?]
    rw [hoperand (by decide), hback]
    rfl
  | loadImmediate | add | sub | mul | div | compare =>
    dsimp only [Instruction.action, perform?]
    rw [hoperand (by decide), hoperand (by decide)]
    rfl

end

/-- Every step goes through. -/
theorem Computer.step?_eq_some (c : Computer) : c.step? = some c.step := by
  rw [step?, step, c.machine.fetch?_eq_some]
  cases hf : c.machine.fetch with
  | error fault => rfl
  | ok x =>
    obtain ⟨i, f⟩ := x
    obtain ⟨hn, -, rfl⟩ := Machine.fetch_eq_ok_iff.mp hf
    -- An instruction that could be fetched lies in memory as a whole, so no guard can fail.
    have ht := Machine.trace?_eq_some (m := c.machine) (by omega)
    have hp := Action.perform?_eq_some (m := c.machine) (i := i) (by omega)
    have hnext := Fetched.next?_eq_some (f := c.machine.fetched i) (by
      rw [Machine.fetched_next]
      exact hn)
    simp only [Option.bind_eq_bind, Option.bind_some, ht, hp, perform]
    rcases (i.action.perform (c.machine.fetched i)).outcome (c.tell (.executing c.machine)) with
      ⟨fault | flow, d⟩
    · rfl
    · cases flow with
      | next => simp only [follow?, follow, hnext]; rfl
      | jump address => rfl
      | halt => rfl

end ByteMachine
