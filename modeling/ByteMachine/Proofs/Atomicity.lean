import ByteMachine.Proofs.Step

namespace ByteMachine

/-- A line that broke off: some of it stands behind what was there before, but not all of it. -/
def Output.BrokenOff (value : UInt8) (before after : Output) : Prop :=
  ∃ text written missing, line value = written ++ missing ∧ missing ≠ [] ∧
    before = lines text (some written.length) ∧
    after = lines (text ++ String.ofList written) (some 0)

theorem Output.brokenOff_of_print {output after : Output} {value : UInt8}
    (h : output.print value = .error after) : BrokenOff value output after := by
  rcases output with bytes | ⟨text, _ | room⟩
  · cases h
  · cases h
  · rw [print] at h
    split at h
    · cases h
    · next hr =>
      cases h
      have hl : ((line value).take room).length = room := by
        rw [List.length_take]
        omega
      refine ⟨text, (line value).take room, (line value).drop room,
        (List.take_append_drop room _).symm, ?_, by rw [hl], rfl⟩
      intro hn
      have hd : (line value).length ≤ room := List.drop_eq_nil_iff.mp hn
      exact hr hd

namespace Computer

/-- A failure has left everything as it was, but for the log. The output has grown only if printing
failed, and then by the beginning of the line that was to be printed. -/
structure Unchanged (fault : Fault) (printing : UInt8 → Prop) (before after : Computer) : Prop where
  machine : after.machine = before.machine
  status : after.status = before.status
  stepLimit : after.stepLimit = before.stepLimit
  profile : after.profile = before.profile
  output : fault ≠ .output → after.output = before.output
  broken : fault = .output →
    ∃ value, printing value ∧ Output.BrokenOff value before.output after.output

variable {c : Computer} {fault : Fault}

theorem unchanged_of_perform {a : Action} {f : Fetched}
    (h : (c.perform a f).result = .error fault) :
    Unchanged fault (fun value ↦ a = .print ∧ c.machine.registers.get (f.operand 0) = .ok value)
      c (c.perform a f).computer := by
  rw [perform_eq_apply] at h ⊢
  have ha : a.Acts f c.machine (a.effect f c.machine) := a.acts_effect
  generalize a.effect f c.machine = effect at h ha ⊢
  cases ha with
  | fails hne =>
    cases h
    exact ⟨rfl, rfl, rfl, rfl, fun _ ↦ rfl, fun ho ↦ absurd ho hne⟩
  | silent => cases h
  | @prints value hv =>
    rw [apply] at h ⊢
    cases hp : c.output.print value with
    | ok output =>
      rw [hp] at h
      cases h
    | error output =>
      rw [hp] at h
      cases h
      exact ⟨rfl, rfl, rfl, rfl, fun ho ↦ absurd rfl ho,
        fun _ ↦ ⟨value, ⟨rfl, hv⟩, Output.brokenOff_of_print hp⟩⟩

theorem frame_of_perform (a : Action) (f : Fetched) :
    (c.perform a f).computer.machine.pc = c.machine.pc ∧
      (c.perform a f).computer.status = c.status ∧
      (c.perform a f).computer.profile = c.profile := by
  rw [perform_eq_apply]
  have ha : a.Acts f c.machine (a.effect f c.machine) := a.acts_effect
  generalize a.effect f c.machine = effect at ha ⊢
  cases ha with
  | fails => exact ⟨rfl, rfl, rfl⟩
  | silent hpc => exact ⟨hpc, rfl, rfl⟩
  | @prints value hv =>
    rw [apply]
    cases c.output.print value with
    | ok output => exact ⟨rfl, rfl, rfl⟩
    | error output => exact ⟨rfl, rfl, rfl⟩

theorem unchanged_of_combine {op : Arithmetic} {first second : UInt8}
    (h : ((Operation.combine op first second).outcome c).result = .error fault) :
    ((Operation.combine op first second).outcome c).computer = c := by
  rw [Operation.outcome_combine] at h ⊢
  cases hr : c.machine.registers.combine op first second with
  | error e => rfl
  | ok registers =>
    rw [hr] at h
    cases h

def Prints (m : Machine) (value : UInt8) : Prop :=
  m.cell m.pc = Instruction.print.opcode ∧ m.registers.get (m.cell (m.pc + 1)) = .ok value

theorem unchanged_of_step (h : c.step.result = .error fault) :
    Unchanged fault (Prints c.machine) c c.step.computer := by
  have hs := c.steps_step
  generalize c.step = outcome at h hs ⊢
  cases hs with
  | unfetched hf =>
    cases h
    refine ⟨rfl, rfl, rfl, rfl, fun _ ↦ rfl, fun ho ↦ ?_⟩
    exact absurd (ho ▸ hf) c.machine.fetch_ne_output
  | refused hf hne =>
    cases h
    exact ⟨rfl, rfl, rfl, rfl, fun _ ↦ rfl, fun ho ↦ absurd ho hne⟩
  | silent => cases h
  | printed => cases h
  | @unprinted f value output hf hv ho =>
    cases h
    obtain ⟨-, hc, rfl⟩ := Machine.fetch_eq_ok_iff.mp hf
    exact ⟨rfl, rfl, rfl, rfl, fun hne ↦ absurd rfl hne,
      fun _ ↦ ⟨value, ⟨hc, hv⟩, Output.brokenOff_of_print ho⟩⟩

/-- Whatever fails, a step, an action by itself or a combination of registers, changes nothing. An
action moves no program counter and touches neither status nor profile, even if it succeeds. -/
theorem failure_changes_nothing :
    (∀ (c : Computer) (fault : Fault), c.step.result = .error fault →
      Unchanged fault (Prints c.machine) c c.step.computer) ∧
    (∀ (c : Computer) (a : Action) (f : Fetched) (fault : Fault),
      (c.perform a f).result = .error fault →
        Unchanged fault
          (fun value ↦ a = .print ∧ c.machine.registers.get (f.operand 0) = .ok value)
          c (c.perform a f).computer) ∧
    (∀ (c : Computer) (op : Arithmetic) (first second : UInt8) (fault : Fault),
      ((Operation.combine op first second).outcome c).result = .error fault →
        ((Operation.combine op first second).outcome c).computer = c) ∧
    ∀ (c : Computer) (a : Action) (f : Fetched),
      (c.perform a f).computer.machine.pc = c.machine.pc ∧
        (c.perform a f).computer.status = c.status ∧
        (c.perform a f).computer.profile = c.profile :=
  ⟨fun _ _ h ↦ unchanged_of_step h, fun _ _ _ _ h ↦ unchanged_of_perform h,
    fun _ _ _ _ _ h ↦ unchanged_of_combine h, fun _ a f ↦ frame_of_perform a f⟩

/-- About to print a zero to an output with room for one byte. -/
def narrow : Computer :=
  { new {} (.lines "" (some 1)) ⟨.warn, #[]⟩ with
    machine := { Machine.initial Registers.defaultTop with
      memory := Memory.blank.set 0 Instruction.print.opcode } }

theorem narrow_changes_nothing :
    (narrow.step.result = .error .output ∧
      Unchanged .output (Prints narrow.machine) narrow narrow.step.computer) ∧
    ((narrow.perform .pop ⟨0, 0x46, [9]⟩).result = .error (.outOfRangeRegister 9) ∧
      (narrow.perform .pop ⟨0, 0x46, [9]⟩).computer.machine = narrow.machine) ∧
    ((Operation.combine .add 0 8).outcome narrow).result = .error (.outOfRangeRegister 8) ∧
      ((Operation.combine .add 0 8).outcome narrow).computer = narrow :=
  have hstep : narrow.step.result = .error .output := rfl
  have hpop : (narrow.perform .pop ⟨0, 0x46, [9]⟩).result = .error (.outOfRangeRegister 9) := rfl
  have hadd : ((Operation.combine .add 0 8).outcome narrow).result =
      .error (.outOfRangeRegister 8) := rfl
  ⟨⟨hstep, failure_changes_nothing.1 narrow _ hstep⟩,
    ⟨hpop, (failure_changes_nothing.2.1 narrow _ _ _ hpop).machine⟩,
    hadd, failure_changes_nothing.2.2.1 narrow _ _ _ _ hadd⟩

end Computer

end ByteMachine
