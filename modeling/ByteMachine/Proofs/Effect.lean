import ByteMachine.Computer.Step
import ByteMachine.Proofs.Answers

namespace ByteMachine

namespace Machine

def push (m : Machine) (value : UInt8) : Machine :=
  let top := m.registers.stackPointer - 1
  { m with memory := m.memory.set top value, registers := m.registers.setStackPointer top }

def top (m : Machine) : UInt8 :=
  m.memory.get m.registers.stackPointer

def dropTop (m : Machine) : Machine :=
  { m with registers := m.registers.setStackPointer (m.registers.stackPointer + 1) }

end Machine

def Registers.combine (r : Registers) (op : Arithmetic) (first second : UInt8) :
    Except Fault Registers := do
  let a ← r.get first
  let b ← r.get second
  match ← op.compute a b with
  | .register value => r.set first value
  | .flags value => return r.setFlags value

theorem Registers.get_ne_output (r : Registers) (index : UInt8) :
    r.get index ≠ .error .output := by
  intro h
  by_cases hi : index.toNat < 8
  · rw [get, dif_pos hi] at h
    cases h
  · rw [get_eq_error hi] at h
    cases h

theorem Registers.set_ne_output (r : Registers) (index value : UInt8) :
    r.set index value ≠ .error .output := by
  intro h
  by_cases hi : index.toNat < 8
  · rw [set, dif_pos hi] at h
    cases h
  · rw [set_eq_error hi] at h
    cases h

theorem Arithmetic.ofOpcode_ne_output (opcode : UInt8) : ofOpcode opcode ≠ .error .output := by
  intro h
  rw [ofOpcode] at h
  split at h <;> cases h

theorem Arithmetic.compute_ne_output (op : Arithmetic) (a b : UInt8) :
    op.compute a b ≠ .error .output := by
  intro h
  cases op with
  | div =>
    rw [compute] at h
    split at h <;> cases h
  | add | sub | mul | compare => cases h

theorem Registers.combine_ne_output (r : Registers) (op : Arithmetic) (first second : UInt8) :
    r.combine op first second ≠ .error .output := by
  intro h
  obtain ha | ⟨a, -, h⟩ := bind_eq_error_iff.mp h
  · exact r.get_ne_output first ha
  obtain hb | ⟨b, -, h⟩ := bind_eq_error_iff.mp h
  · exact r.get_ne_output second hb
  obtain hr | ⟨result, -, h⟩ := bind_eq_error_iff.mp h
  · exact op.compute_ne_output a b hr
  · cases result with
    | register value => exact r.set_ne_output first value h
    | flags value => cases h

/-- What an action leaves: the machine, the flow it asks for and the value it prints. -/
structure Effect where
  machine : Machine
  flow : Flow
  printed : Option UInt8

def Action.effect (f : Fetched) (m : Machine) : Action → Except Fault Effect
  | halt => .ok ⟨m, .halt, none⟩
  | loadImmediate => do
    let registers ← m.registers.set (f.operand 0) (f.operand 1)
    return ⟨{ m with registers }, .next, none⟩
  | arithmetic => do
    let op ← Arithmetic.ofOpcode f.opcode
    let registers ← m.registers.combine op (f.operand 0) (f.operand 1)
    return ⟨{ m with registers }, .next, none⟩
  | print => do
    let value ← m.registers.get (f.operand 0)
    return ⟨m, .next, some value⟩
  | push => do
    let value ← m.registers.get (f.operand 0)
    return ⟨m.push value, .next, none⟩
  | pop => do
    let registers ← m.dropTop.registers.set (f.operand 0) m.top
    return ⟨{ m with registers }, .next, none⟩
  | call => do
    let target ← m.registers.get (f.operand 0)
    if f.pc + 2 < 256 then return ⟨m.push (UInt8.ofNat (f.pc + 2)), .jump target.toNat, none⟩
    else .error (.outOfRangeAddress (f.pc + 2))
  | ret => .ok ⟨m.dropTop, .jump m.top.toNat, none⟩
  | jump => do
    let target ← m.registers.get (f.operand 0)
    return ⟨m, .jump target.toNat, none⟩
  | jumpIfEqual => do
    let target ← m.registers.get (f.operand 0)
    return ⟨m, if m.registers.flags = Flags.equal then .jump target.toNat else .next, none⟩
  | jumpIfNotEqual => do
    let target ← m.registers.get (f.operand 0)
    return ⟨m, if m.registers.flags ≠ Flags.equal then .jump target.toNat else .next, none⟩

namespace Action

variable {f : Fetched} {m : Machine}

/-- What an action can come to. Only the print action prints, and it changes nothing else. -/
inductive Acts (f : Fetched) (m : Machine) : Action → Except Fault Effect → Prop
  | fails {a : Action} {fault : Fault} (hf : fault ≠ .output) : Acts f m a (.error fault)
  | silent {a : Action} {n : Machine} {flow : Flow} (hpc : n.pc = m.pc) :
      Acts f m a (.ok ⟨n, flow, none⟩)
  | prints {value : UInt8} (hv : m.registers.get (f.operand 0) = .ok value) :
      Acts f m print (.ok ⟨m, .next, some value⟩)

theorem acts_bind {α : Type} {a : Action} {x : Except Fault α} {rest : α → Except Fault Effect}
    (hx : x ≠ .error .output) (h : ∀ v, x = .ok v → Acts f m a (rest v)) :
    Acts f m a (x >>= rest) := by
  cases x with
  | error fault =>
    refine .fails ?_
    rintro rfl
    exact hx rfl
  | ok v => exact h v rfl

theorem acts_effect (a : Action) : Acts f m a (a.effect f m) := by
  cases a with
  | halt | ret => exact .silent rfl
  | loadImmediate => exact acts_bind (m.registers.set_ne_output _ _) fun _ _ ↦ .silent rfl
  | pop => exact acts_bind (m.dropTop.registers.set_ne_output _ _) fun _ _ ↦ .silent rfl
  | arithmetic =>
    refine acts_bind (Arithmetic.ofOpcode_ne_output _) fun op _ ↦ ?_
    exact acts_bind (m.registers.combine_ne_output op _ _) fun _ _ ↦ .silent rfl
  | call =>
    refine acts_bind (m.registers.get_ne_output _) fun target _ ↦ ?_
    split
    · exact .silent rfl
    · exact .fails nofun
  | print => exact acts_bind (m.registers.get_ne_output _) fun _ h ↦ .prints h
  | push | jump | jumpIfEqual | jumpIfNotEqual =>
    exact acts_bind (m.registers.get_ne_output _) fun _ _ ↦ .silent rfl

end Action

namespace Operation

variable (c : Computer)

@[simp]
theorem outcome_register (index : UInt8) :
    outcome (register index) c = ⟨c.machine.registers.get index, c⟩ := by
  simp [register, outcome_bind]

theorem outcome_setRegister (index value : UInt8) :
    outcome (setRegister index value) c =
      match c.machine.registers.set index value with
      | .ok registers => ⟨.ok (), c.withRegisters registers⟩
      | .error fault => ⟨.error fault, c⟩ := by
  simp only [setRegister, outcome_bind, outcome_get, outcome_answer]
  cases c.machine.registers.set index value <;> rfl

@[simp]
theorem outcome_push (value : UInt8) :
    outcome (push value) c = ⟨.ok (), { c with machine := c.machine.push value }⟩ := by
  simp [push, writeCell, setStackPointer, outcome_bind, Machine.push, Computer.withMemory,
    Computer.withRegisters]

@[simp]
theorem outcome_pop :
    outcome pop c = ⟨.ok c.machine.top, { c with machine := c.machine.dropTop }⟩ := by
  simp [pop, readCell, setStackPointer, outcome_bind, Machine.top, Machine.dropTop,
    Computer.withRegisters, Except.map]

theorem outcome_print (value : UInt8) :
    outcome (print value) c =
      match c.output.print value with
      | .ok output => ⟨.ok (), { c with output }⟩
      | .error output => ⟨.error .output, { c with output }⟩ := by
  simp only [print, outcome_bind, outcome_get]
  cases c.output.print value <;> rfl

theorem outcome_combine (op : Arithmetic) (first second : UInt8) :
    outcome (combine op first second) c =
      match c.machine.registers.combine op first second with
      | .ok registers => ⟨.ok (), c.withRegisters registers⟩
      | .error fault => ⟨.error fault, c⟩ := by
  simp only [combine, Registers.combine, outcome_bind, outcome_register, outcome_answer]
  cases ha : c.machine.registers.get first with
  | error fault => rfl
  | ok a =>
    cases hb : c.machine.registers.get second with
    | error fault => simp only [hb, bind, Except.bind]
    | ok b =>
      cases hr : op.compute a b with
      | error fault => simp only [hb, hr, bind, Except.bind]
      | ok result =>
        simp only [hb, hr, bind, Except.bind]
        cases result with
        | register value => exact outcome_setRegister c first value
        | flags value => rfl

end Operation

namespace Computer

/-- What an effect makes of a computer; printing comes last. -/
def apply (c : Computer) : Except Fault Effect → Outcome Flow
  | .error fault => ⟨.error fault, c⟩
  | .ok ⟨machine, flow, none⟩ => ⟨.ok flow, { c with machine }⟩
  | .ok ⟨machine, flow, some value⟩ =>
    match c.output.print value with
    | .ok output => ⟨.ok flow, { c with machine, output }⟩
    | .error output => ⟨.error .output, { c with output }⟩

open Operation in
/-- Carrying an action out in place is applying its effect. -/
theorem perform_eq_apply (c : Computer) (a : Action) (f : Fetched) :
    c.perform a f = c.apply (a.effect f c.machine) := by
  rw [perform]
  cases a with
  | halt => rfl
  | loadImmediate =>
    simp only [Action.perform, Action.effect, outcome_bind, outcome_setRegister]
    cases c.machine.registers.set (f.operand 0) (f.operand 1) <;> rfl
  | arithmetic =>
    simp only [Action.perform, Action.effect, outcome_bind, outcome_answer]
    cases Arithmetic.ofOpcode f.opcode with
    | error fault => rfl
    | ok op =>
      simp only [outcome_combine, bind, Except.bind]
      cases c.machine.registers.combine op (f.operand 0) (f.operand 1) <;> rfl
  | print =>
    simp only [Action.perform, Action.effect, outcome_bind, outcome_register, outcome_print]
    cases c.machine.registers.get (f.operand 0) with
    | error fault => rfl
    | ok value =>
      simp only [bind, Except.bind, pure, Except.pure, apply]
      cases c.output.print value <;> rfl
  | push =>
    simp only [Action.perform, Action.effect, outcome_bind, outcome_register, outcome_push]
    cases c.machine.registers.get (f.operand 0) <;> rfl
  | pop =>
    simp only [Action.perform, Action.effect, outcome_bind, outcome_get, outcome_answer,
      Registers.check]
    -- What is checked first and what is written last is the same register.
    by_cases h : (f.operand 0).toNat < 8
    · simp only [Registers.get, dif_pos h, Except.map, outcome_pop, outcome_setRegister,
        Registers.set]
      rfl
    · simp only [Registers.get_eq_error h, Registers.set_eq_error h]
      rfl
  | call =>
    simp only [Action.perform, Action.effect, outcome_bind, outcome_register]
    cases c.machine.registers.get (f.operand 0) with
    | error fault => rfl
    | ok target =>
      by_cases h : f.pc + 2 < 256
      · simp only [if_pos h, outcome_bind, outcome_pure, outcome_push]
        rfl
      · simp only [if_neg h, outcome_bind, outcome_throw]
        rfl
  | ret => simp only [Action.perform, Action.effect, outcome_bind, outcome_pop]; rfl
  | jump =>
    simp only [Action.perform, Action.effect, outcome_bind, outcome_register]
    cases c.machine.registers.get (f.operand 0) <;> rfl
  | jumpIfEqual | jumpIfNotEqual =>
    simp only [Action.perform, Action.effect, outcome_bind, outcome_register, outcome_get]
    cases c.machine.registers.get (f.operand 0) <;> rfl

end Computer

end ByteMachine
