import ByteMachine.Proofs.Effect

namespace ByteMachine

theorem Memory.get_injective : Function.Injective Memory.get := by
  intro m n h
  refine Memory.ext (Vector.ext fun i hi ↦ ?_)
  have hb : (UInt8.ofNat i).toNat = i := by
    simpa using Nat.mod_eq_of_lt hi
  have hcell := congrFun h (UInt8.ofNat i)
  simp only [get, hb] at hcell
  exact hcell

namespace Machine

/-- The cell that an address names when it is taken as a byte. -/
def cell (m : Machine) (address : Nat) : UInt8 :=
  m.memory.get (UInt8.ofNat address)

def fetched (m : Machine) (i : Instruction) : Fetched :=
  ⟨m.pc, i.opcode, (List.range i.slots.length).map fun k ↦ m.cell (m.pc + 1 + k)⟩

theorem fetched_operand (m : Machine) {i : Instruction} {k : Nat} (h : k < i.slots.length) :
    (m.fetched i).operand k = m.cell (m.pc + 1 + k) := by
  simp [Fetched.operand, fetched, h]

theorem fetched_next (m : Machine) (i : Instruction) :
    (m.fetched i).next = m.pc + 1 + i.slots.length := by
  simp [Fetched.next, fetched]

theorem read_of_lt (m : Machine) {address : Nat} (h : address < 256) :
    m.memory.read address = .ok (m.cell address) := by
  have hb : (UInt8.ofNat address).toNat = address := by
    simpa using Nat.mod_eq_of_lt h
  rw [cell, ← Memory.read_toNat, hb]

theorem read_of_le (m : Machine) {address : Nat} (h : 256 ≤ address) :
    m.memory.read address = .error (.outOfRangeAddress address) :=
  dif_neg (by omega)

theorem cell_of_read {m : Machine} {address : Nat} {byte : UInt8}
    (h : m.memory.read address = .ok byte) : address < 256 ∧ m.cell address = byte := by
  by_cases hlt : address < 256
  · rw [m.read_of_lt hlt] at h
    exact ⟨hlt, Except.ok.inj h⟩
  · rw [m.read_of_le (Nat.not_lt.mp hlt)] at h
    cases h

theorem mapM_read (m : Machine) {base : Nat} (hb : base ≤ 256) (n : Nat) :
    (List.range n).mapM (fun k ↦ m.memory.read (base + k)) =
      if base + n ≤ 256 then .ok ((List.range n).map fun k ↦ m.cell (base + k))
      else .error (.outOfRangeAddress 256) := by
  induction n with
  | zero => simp [hb, pure, Except.pure]
  | succ n ih =>
    rw [List.range_succ, List.mapM_append, ih]
    by_cases hn : base + n ≤ 256
    · by_cases hlast : base + n < 256
      · rw [if_pos hn, if_pos (by omega)]
        simp [m.read_of_lt hlast, bind, Except.bind, pure, Except.pure]
      · have he : base + n = 256 := by omega
        rw [if_pos hn, if_neg (by omega)]
        simp [he, m.read_of_le (Nat.le_refl 256), bind, Except.bind]
    · rw [if_neg hn, if_neg (by omega)]
      rfl

theorem fetch_eq (m : Machine) :
    m.fetch =
      if m.pc < 256 then
        match Instruction.ofOpcode? (m.cell m.pc) with
        | none => .error (.unknownOpcode (m.cell m.pc) m.pc)
        | some i =>
          if m.pc + 1 + i.slots.length ≤ 256 then .ok (i, m.fetched i)
          else .error (.outOfRangeAddress 256)
      else .error (.outOfRangeAddress m.pc) := by
  rw [fetch]
  by_cases h : m.pc < 256
  · simp only [m.read_of_lt h, if_pos h, Dispatch.get?_table, bind, Except.bind]
    cases hi : Instruction.ofOpcode? (m.cell m.pc) with
    | none => rfl
    | some i =>
      have ho : i.opcode = m.cell m.pc := Instruction.opcode_eq_of_ofOpcode? hi
      simp only [← ho, ← i.length_slots, m.mapM_read (show m.pc + 1 ≤ 256 by omega)]
      by_cases hn : m.pc + 1 + i.slots.length ≤ 256
      · simp only [if_pos hn]
        rfl
      · simp only [if_neg hn]
  · simp only [m.read_of_le (show 256 ≤ m.pc by omega), if_neg h, bind, Except.bind]

theorem fetch_of_le {m : Machine} (h : 256 ≤ m.pc) :
    m.fetch = .error (.outOfRangeAddress m.pc) := by
  rw [fetch_eq, if_neg (Nat.not_lt.mpr h)]

theorem fetch_eq_ok_iff {m : Machine} {i : Instruction} {f : Fetched} :
    m.fetch = .ok (i, f) ↔
      m.pc + 1 + i.slots.length ≤ 256 ∧ m.cell m.pc = i.opcode ∧ f = m.fetched i := by
  rw [fetch_eq]
  constructor
  · intro h
    split at h
    · split at h
      · cases h
      · next j hj =>
        split at h
        · next hn =>
          cases h
          exact ⟨hn, (Instruction.opcode_eq_of_ofOpcode? hj).symm, rfl⟩
        · cases h
    · cases h
  · intro h
    obtain ⟨hn, ho, rfl⟩ := h
    rw [if_pos (by omega), ho, Instruction.ofOpcode?_opcode]
    exact if_pos hn

theorem fetch_ne_output (m : Machine) : m.fetch ≠ .error .output := by
  intro h
  rw [fetch_eq] at h
  split at h
  · split at h
    · cases h
    · split at h <;> cases h
  · cases h

end Machine

theorem Instruction.eq_print_of_action {i : Instruction} (h : i.action = .print) : i = .print := by
  cases i <;> first | rfl | cases h

namespace Computer

variable {c : Computer}

theorem step_of_fetch_error {fault : Fault} (h : c.machine.fetch = .error fault) :
    c.step = ⟨.error fault, c⟩ := by
  rw [step, h]

def complete (c : Computer) (f : Fetched) (machine : Machine) (flow : Flow) : Computer :=
  (({ c with machine }).count f.opcode).follow f flow

@[simp]
theorem output_complete (c : Computer) (f : Fetched) (machine : Machine) (flow : Flow) :
    (c.complete f machine flow).output = c.output := by
  cases flow <;> rfl

@[simp]
theorem stepLimit_complete (c : Computer) (f : Fetched) (machine : Machine) (flow : Flow) :
    (c.complete f machine flow).stepLimit = c.stepLimit := by
  cases flow <;> rfl

theorem status_complete (c : Computer) (f : Fetched) (machine : Machine) (flow : Flow) :
    (c.complete f machine flow).status = .running ↔ flow ≠ .halt := by
  cases flow <;> simp [complete, follow]

theorem step_of_fetch {i : Instruction} {f : Fetched} (h : c.machine.fetch = .ok (i, f)) :
    c.step =
      let d := c.tell (.executing c.machine)
      match i.action.effect f c.machine with
      | .error fault => ⟨.error fault, d⟩
      | .ok ⟨machine, flow, none⟩ => ⟨.ok (flow ≠ .halt), d.complete f machine flow⟩
      | .ok ⟨machine, flow, some value⟩ =>
        match c.output.print value with
        | .ok output => ⟨.ok (flow ≠ .halt), { d with output }.complete f machine flow⟩
        | .error output => ⟨.error .output, { d with output }⟩ := by
  rw [step, h]
  have hm : (c.tell (.executing c.machine)).machine = c.machine := rfl
  simp only [perform_eq_apply, hm]
  rcases i.action.effect f c.machine with fault | ⟨machine, flow, _ | value⟩
  · rfl
  · cases flow <;> rfl
  · simp only [apply, tell]
    cases c.output.print value with
    | error output => rfl
    | ok output => cases flow <;> rfl

inductive Steps (c : Computer) : Outcome Bool → Prop
  | unfetched {fault : Fault} (hf : c.machine.fetch = .error fault) : Steps c ⟨.error fault, c⟩
  | refused {i : Instruction} {f : Fetched} {fault : Fault} (hf : c.machine.fetch = .ok (i, f))
      (hne : fault ≠ .output) : Steps c ⟨.error fault, c.tell (.executing c.machine)⟩
  | silent {i : Instruction} {f : Fetched} {machine : Machine} {flow : Flow}
      (hf : c.machine.fetch = .ok (i, f))
      (he : i.action.effect f c.machine = .ok ⟨machine, flow, none⟩) :
      Steps c ⟨.ok (flow ≠ .halt), (c.tell (.executing c.machine)).complete f machine flow⟩
  | printed {f : Fetched} {value : UInt8} {output : Output}
      (hf : c.machine.fetch = .ok (.print, f))
      (hv : c.machine.registers.get (f.operand 0) = .ok value)
      (ho : c.output.print value = .ok output) :
      Steps c ⟨.ok true,
        { c.tell (.executing c.machine) with output }.complete f c.machine .next⟩
  | unprinted {f : Fetched} {value : UInt8} {output : Output}
      (hf : c.machine.fetch = .ok (.print, f))
      (hv : c.machine.registers.get (f.operand 0) = .ok value)
      (ho : c.output.print value = .error output) :
      Steps c ⟨.error .output, { c.tell (.executing c.machine) with output }⟩

theorem steps_step (c : Computer) : Steps c c.step := by
  cases hf : c.machine.fetch with
  | error fault =>
    rw [step_of_fetch_error hf]
    exact .unfetched hf
  | ok x =>
    obtain ⟨i, f⟩ := x
    rw [step_of_fetch hf]
    have ha : i.action.Acts f c.machine (i.action.effect f c.machine) := Action.acts_effect _
    generalize he : i.action.effect f c.machine = effect at ha ⊢
    generalize hi : i.action = action at ha
    cases ha with
    | fails hne => exact .refused hf hne
    | silent => exact .silent hf he
    | @prints value hv =>
      obtain rfl : i = .print := Instruction.eq_print_of_action hi
      dsimp only
      cases ho : c.output.print value with
      | error output => exact .unprinted hf hv ho
      | ok output => exact .printed hf hv ho

end Computer

end ByteMachine
