import ByteMachine.Arithmetic
import ByteMachine.Computer

namespace ByteMachine

abbrev Operation (α : Type) := EStateM Fault Computer α

namespace Operation

variable {α : Type}

def outcome (operation : Operation α) (c : Computer) : Outcome α :=
  match operation.run c with
  | .ok answer c => ⟨.ok answer, c⟩
  | .error fault c => ⟨.error fault, c⟩

def answer : Except Fault α → Operation α
  | .ok a => pure a
  | .error fault => throw fault

variable {β : Type}

@[simp]
theorem outcome_pure (a : α) (c : Computer) : outcome (pure a) c = ⟨.ok a, c⟩ :=
  rfl

@[simp]
theorem outcome_throw (fault : Fault) (c : Computer) :
    outcome (throw fault : Operation α) c = ⟨.error fault, c⟩ :=
  rfl

@[simp]
theorem outcome_modify (f : Computer → Computer) (c : Computer) :
    outcome (modify f) c = ⟨.ok (), f c⟩ :=
  rfl

@[simp]
theorem outcome_get (c : Computer) : outcome get c = ⟨.ok c, c⟩ :=
  rfl

@[simp]
theorem outcome_answer (a : Except Fault α) (c : Computer) : outcome (answer a) c = ⟨a, c⟩ := by
  cases a <;> rfl

@[simp]
theorem outcome_map (f : α → β) (x : Operation α) (c : Computer) :
    outcome (f <$> x) c = ⟨(outcome x c).result.map f, (outcome x c).computer⟩ := by
  change outcome (EStateM.map f x) c = _
  simp only [outcome, EStateM.run, EStateM.map]
  cases x c <;> rfl

theorem outcome_bind (x : Operation α) (f : α → Operation β) (c : Computer) :
    outcome (x >>= f) c =
      match outcome x c with
      | ⟨.ok a, d⟩ => outcome (f a) d
      | ⟨.error fault, d⟩ => ⟨.error fault, d⟩ := by
  simp only [outcome, EStateM.run_bind]
  cases x.run c <;> rfl

def register (index : UInt8) : Operation UInt8 := do
  answer ((← get).machine.registers.get index)

def setRegister (index value : UInt8) : Operation Unit := do
  let registers ← answer ((← get).machine.registers.set index value)
  modify (·.withRegisters registers)

def setFlags (value : UInt8) : Operation Unit :=
  modify fun c ↦ c.withRegisters (c.machine.registers.setFlags value)

def setStackPointer (value : UInt8) : Operation Unit :=
  modify fun c ↦ c.withRegisters (c.machine.registers.setStackPointer value)

def readCell (address : Nat) : Operation UInt8 := do
  answer ((← get).machine.memory.read address)

def writeCell (address : Nat) (value : UInt8) : Operation Unit := do
  let memory ← answer ((← get).machine.memory.write address value)
  modify (·.withMemory memory)

/-- The stack grows downwards and wraps from the first cell to the last. -/
def push (value : UInt8) : Operation Unit := do
  let top := (← get).machine.registers.stackPointer - 1
  writeCell top.toNat value
  setStackPointer top

def pop : Operation UInt8 := do
  let top := (← get).machine.registers.stackPointer
  let value ← readCell top.toNat
  setStackPointer (top + 1)
  return value

/-- Prints a value. The output keeps what was written of it even if printing fails. -/
def print (value : UInt8) : Operation Unit := do
  match (← get).output.print value with
  | .ok output => modify ({ · with output })
  | .error output =>
    modify ({ · with output })
    throw .output

/-- Combines two registers; the result goes to the first of them, or to the flags. -/
def combine (op : Arithmetic) (first second : UInt8) : Operation Unit := do
  let a ← register first
  let b ← register second
  match ← answer (op.compute a b) with
  | .register value => setRegister first value
  | .flags value => setFlags value

end Operation

def Computer.combine (c : Computer) (op : Arithmetic) (first second : UInt8) :
    Except Fault Computer :=
  let outcome := (Operation.combine op first second).outcome c
  outcome.result.map fun _ ↦ outcome.computer

end ByteMachine
