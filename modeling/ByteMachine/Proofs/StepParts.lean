import ByteMachine.Proofs.Step

namespace ByteMachine

/-- The value that the next instruction is to print, if it prints and names a register. -/
def Machine.printing? (m : Machine) : Option UInt8 :=
  match m.fetch with
  | .ok (.print, f) => (m.registers.get (f.operand 0)).toOption
  | _ => none

/-- The output after a value has been handed to it, whether it took the value or not. -/
def Output.offer (output : Output) : Option UInt8 → Output
  | none => output
  | some value =>
    match output.print value with
    | .ok output | .error output => output

theorem Output.offer_of_ok {output after : Output} {value : UInt8}
    (h : output.print value = .ok after) : output.offer (some value) = after := by
  rw [offer, h]

theorem Output.offer_of_error {output after : Output} {value : UInt8}
    (h : output.print value = .error after) : output.offer (some value) = after := by
  rw [offer, h]

namespace Computer

/-- The instruction that the next step carries out, if the step succeeds. -/
def executed? (c : Computer) : Option Instruction :=
  match c.machine.fetch, c.step.result with
  | .ok (i, _), .ok _ => some i
  | _, _ => none

variable {c d : Computer} {value : UInt8}

theorem effect_print {f : Fetched} {m : Machine} :
    Action.print.effect f m = (m.registers.get (f.operand 0)).map fun value ↦
      ⟨m, .next, some value⟩ := by
  rw [Action.effect]
  cases m.registers.get (f.operand 0) <;> rfl

theorem printing?_eq_some_iff {m : Machine} :
    m.printing? = some value ↔
      ∃ f, m.fetch = .ok (.print, f) ∧ m.registers.get (f.operand 0) = .ok value := by
  rw [Machine.printing?]
  constructor
  · intro h
    split at h
    · next f hf =>
      refine ⟨f, hf, ?_⟩
      cases hr : m.registers.get (f.operand 0) with
      | error fault =>
        rw [hr] at h
        cases h
      | ok other =>
        rw [hr] at h
        cases h
        rfl
    · cases h
  · rintro ⟨f, hf, hr⟩
    rw [hf]
    simp only [hr]
    rfl

theorem step_of_printing (h : c.machine.printing? = some value) :
    c.step.result = (if (c.output.print value).isOk then .ok true else .error .output) ∧
      c.step.computer.output = c.output.offer (some value) := by
  obtain ⟨f, hf, hr⟩ := printing?_eq_some_iff.mp h
  rw [step_of_fetch hf, Instruction.action, effect_print, hr, Output.offer]
  simp only [Except.map]
  cases c.output.print value with
  | error output => exact ⟨rfl, rfl⟩
  | ok output => exact ⟨rfl, output_complete _ _ _ _⟩

theorem printing?_of_print {f : Fetched} {m : Machine} (hf : m.fetch = .ok (.print, f))
    (h : m.printing? = none) : ∃ fault, m.registers.get (f.operand 0) = .error fault := by
  cases hr : m.registers.get (f.operand 0) with
  | error fault => exact ⟨fault, rfl⟩
  | ok value =>
    rw [printing?_eq_some_iff.mpr ⟨f, hf, hr⟩] at h
    cases h

theorem step_of_not_printing (h : c.machine.printing? = none) :
    c.step.computer.output = c.output ∧ c.step.result ≠ .error .output := by
  have hs := c.steps_step
  generalize c.step = outcome at hs ⊢
  cases hs with
  | @unfetched fault hf =>
    refine ⟨rfl, fun hr ↦ ?_⟩
    cases hr
    exact c.machine.fetch_ne_output hf
  | @refused i f fault hf hne =>
    refine ⟨rfl, fun hr ↦ ?_⟩
    cases hr
    exact hne rfl
  | silent => exact ⟨output_complete _ _ _ _, nofun⟩
  | printed hf hv ho =>
    obtain ⟨fault, hr⟩ := printing?_of_print hf h
    cases hv.symm.trans hr
  | unprinted hf hv ho =>
    obtain ⟨fault, hr⟩ := printing?_of_print hf h
    cases hv.symm.trans hr

/-- The step lemma for the output: it is handed what the instruction prints, and nothing else. -/
theorem offer_step (c : Computer) :
    c.step.computer.output = c.output.offer c.machine.printing? := by
  cases h : c.machine.printing? with
  | none => exact (step_of_not_printing h).1
  | some value => exact (step_of_printing h).2

theorem executed?_of_ok {i : Instruction} {f : Fetched} {running : Bool}
    (hf : c.machine.fetch = .ok (i, f)) (h : c.step.result = .ok running) :
    c.executed? = some i := by
  rw [executed?, hf, h]

theorem executed?_of_error {fault : Fault} (h : c.step.result = .error fault) :
    c.executed? = none := by
  rw [executed?, h]
  cases c.machine.fetch <;> rfl

theorem executed?_of_result {running : Bool} (h : c.step.result = .ok running) :
    ∃ i f, c.machine.fetch = .ok (i, f) ∧ c.executed? = some i := by
  cases hf : c.machine.fetch with
  | error fault =>
    rw [step_of_fetch_error hf] at h
    cases h
  | ok x =>
    obtain ⟨i, f⟩ := x
    exact ⟨i, f, rfl, executed?_of_ok hf h⟩

@[simp]
theorem profile_complete (c : Computer) (f : Fetched) (machine : Machine) (flow : Flow) :
    (c.complete f machine flow).profile = c.profile.map (·.record f.opcode) := by
  cases flow <;> rfl

/-- The step lemma for profiles: what is carried out is recorded. -/
theorem profile_step (c : Computer) :
    c.step.computer.profile =
      c.profile.map fun p ↦ c.executed?.elim p fun i ↦ p.record i.opcode := by
  have hs := c.steps_step
  generalize ho : c.step = outcome at hs ⊢
  cases hs with
  | unfetched | refused | unprinted =>
    rw [executed?_of_error (congrArg Outcome.result ho)]
    exact Option.map_id'.symm
  | silent hf | printed hf =>
    obtain ⟨-, -, rfl⟩ := Machine.fetch_eq_ok_iff.mp hf
    rw [executed?_of_ok hf (congrArg Outcome.result ho), profile_complete]
    rfl

@[simp]
theorem log_complete (c : Computer) (f : Fetched) (machine : Machine) (flow : Flow) :
    (c.complete f machine flow).log = c.log := by
  cases flow <;> rfl

/-- The step lemma for logs: what is fetched is told before it is carried out. -/
theorem log_step (c : Computer) :
    c.step.computer.log =
      if c.machine.fetch.isOk then c.log.record (.executing c.machine) else c.log := by
  have hs := c.steps_step
  generalize c.step = outcome at hs ⊢
  cases hs with
  | unfetched hf =>
    rw [hf]
    rfl
  | refused hf | unprinted hf =>
    rw [hf]
    rfl
  | silent hf | printed hf =>
    rw [hf, log_complete]
    rfl

/-- The answer of a step and the machine it leaves depend on the machine alone, if the output takes
what is to be printed. -/
theorem step_congr (hm : d.machine = c.machine)
    (ho : ∀ value, c.machine.printing? = some value →
      (d.output.print value).isOk = (c.output.print value).isOk) :
    d.step.result = c.step.result ∧ d.step.computer.machine = c.step.computer.machine := by
  cases hf : c.machine.fetch with
  | error fault =>
    rw [step_of_fetch_error hf, step_of_fetch_error (hm ▸ hf)]
    exact ⟨rfl, hm⟩
  | ok x =>
    obtain ⟨i, f⟩ := x
    rw [step_of_fetch hf, step_of_fetch (hm ▸ hf), hm]
    have ha : i.action.Acts f c.machine (i.action.effect f c.machine) := Action.acts_effect _
    generalize i.action.effect f c.machine = effect at ha ⊢
    generalize hi : i.action = action at ha
    cases ha with
    | fails => exact ⟨rfl, hm⟩
    | @silent _ _ flow => cases flow <;> exact ⟨rfl, rfl⟩
    | @prints value hv =>
      obtain rfl : i = .print := Instruction.eq_print_of_action hi
      have hok := ho value (printing?_eq_some_iff.mpr ⟨f, hf, hv⟩)
      dsimp only
      cases hc : c.output.print value with
      | error o =>
        cases hd : d.output.print value with
        | error p => exact ⟨rfl, hm⟩
        | ok p =>
          rw [hc, hd] at hok
          cases hok
      | ok o =>
        cases hd : d.output.print value with
        | error p =>
          rw [hc, hd] at hok
          cases hok
        | ok p => exact ⟨rfl, rfl⟩

theorem executed?_congr (hm : d.machine = c.machine) (hr : d.step.result = c.step.result) :
    d.executed? = c.executed? := by
  rw [executed?, executed?, hm, hr]

end Computer

end ByteMachine
