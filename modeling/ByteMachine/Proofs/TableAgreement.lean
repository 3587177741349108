import ByteMachine.Proofs.InstructionTable
import ByteMachine.Proofs.StepParts

namespace ByteMachine

namespace InstructionTable

open Instruction

theorem set_eq_update {n : Nat} (v : Vector UInt8 n) (k : Fin n) (value : UInt8) :
    (fun i : Fin n ↦ (v.set k value)[i]) = Function.update (fun i : Fin n ↦ v[i]) k value := by
  funext i
  rcases eq_or_ne i k with rfl | h
  · simp
  · rw [Function.update_of_ne h]
    exact Vector.getElem_set_ne _ _ (fun he ↦ h (Fin.ext he.symm))

namespace State

variable (m : Machine) (running : Bool)

def after (f : Fetched) (e : Effect) : State :=
  match e.flow with
  | .next => .of { e.machine with pc := f.next } true
  | .jump address => .of { e.machine with pc := address } true
  | .halt => .of e.machine false

theorem get_of_lt {index : UInt8} (h : index.toNat < 8) :
    m.registers.get index = .ok ((State.of m running).register index) := by
  simp [Registers.get, register, of, h, Fin.ofNat, Nat.mod_eq_of_lt h]

theorem set_of_lt {index : UInt8} (h : index.toNat < 8) (value : UInt8) :
    ∃ registers, m.registers.set index value = .ok registers ∧ ∀ pc running,
      State.of { m with registers, pc } running =
        { (State.of m running).setRegister index value with pc } := by
  refine ⟨_, dif_pos h, fun pc running ↦ ?_⟩
  have hi : Fin.ofNat 8 index.toNat = ⟨index.toNat, h⟩ := Fin.ext (Nat.mod_eq_of_lt h)
  simp only [of, setRegister, hi]
  congr 1
  exact set_eq_update m.registers.general ⟨index.toNat, h⟩ value

theorem of_push (value : UInt8) (pc : Nat) :
    State.of { m.push value with pc } running = { (State.of m running).pushed value with pc } := by
  simp only [of, pushed]
  congr 1
  · funext a
    simp only [Machine.push, Memory.get_set, Function.update_apply]
    rfl
  · exact set_eq_update m.registers.general 7 _

theorem of_dropTop (pc : Nat) :
    State.of { m.dropTop with pc } running = { (State.of m running).popped with pc } := by
  simp only [of, popped]
  congr 1
  exact set_eq_update m.registers.general 7 _

end State

def Answers (r : Row) (s : State) (f : Fetched) (fault? : Option Fault) :
    Except Fault Effect → Prop
  | .error fault => fault? = some fault
  | .ok e => fault? = none ∧ r.printed s = e.printed ∧ r.effect s = .after f e

/-- An instruction does what its row says, and fails where its row says so. -/
def Agrees (m : Machine) (running : Bool) (i : Instruction) : Prop :=
  Answers (row i) (.of m running) (m.fetched i) ((row i).fault? (.of m running))
    (i.action.effect (m.fetched i) m)

variable {m : Machine} {running : Bool} {i : Instruction}

theorem agrees_of_first (h0 : (row i).operands[0]? = some .register)
    (h1 : (row i).operands[1]? ≠ some .register)
    (hbad : ¬ (m.cell (m.pc + 1)).toNat < 8 →
      i.action.effect (m.fetched i) m = .error (.outOfRangeRegister (m.cell (m.pc + 1))))
    (hgood : (m.cell (m.pc + 1)).toNat < 8 → Answers (row i) (.of m running) (m.fetched i)
      ((row i).refusal (.of m running)) (i.action.effect (m.fetched i) m)) :
    Agrees m running i := by
  by_cases ha : (m.cell (m.pc + 1)).toNat < 8
  · have hf : (row i).fault? (.of m running) = (row i).refusal (.of m running) := by
      rw [Row.fault?, if_neg (fun h ↦ Nat.not_lt.mpr h.2 ha), if_neg (fun h ↦ h1 h.1)]
    rw [Agrees, hf]
    exact hgood ha
  · rw [Agrees, hbad ha]
    exact if_pos ⟨h0, Nat.not_lt.mp ha⟩

theorem agrees_of_register (h0 : (row i).operands = [.register])
    (rest : UInt8 → Except Fault Effect)
    (he : i.action.effect (m.fetched i) m = m.registers.get (m.cell (m.pc + 1)) >>= rest)
    (h : Answers (row i) (.of m running) (m.fetched i) ((row i).refusal (.of m running))
      (rest ((State.of m running).register (m.cell (m.pc + 1))))) :
    Agrees m running i := by
  refine agrees_of_first (by rw [h0]; rfl) (by rw [h0]; simp) (fun ha ↦ ?_) (fun ha ↦ ?_)
  · rw [he, Registers.get_eq_error ha]
    rfl
  · rw [he, State.get_of_lt m running ha]
    exact h

theorem agrees_of_registers (h0 : (row i).operands = [.register, .register])
    (rest : UInt8 → UInt8 → Except Fault Effect)
    (he : i.action.effect (m.fetched i) m = do
      rest (← m.registers.get (m.cell (m.pc + 1))) (← m.registers.get (m.cell (m.pc + 2))))
    (h : (m.cell (m.pc + 1)).toNat < 8 →
      Answers (row i) (.of m running) (m.fetched i) ((row i).refusal (.of m running))
        (rest ((State.of m running).register (m.cell (m.pc + 1)))
          ((State.of m running).register (m.cell (m.pc + 2))))) :
    Agrees m running i := by
  rw [Agrees, he]
  by_cases ha : (m.cell (m.pc + 1)).toNat < 8
  · rw [State.get_of_lt m running ha, Row.fault?, if_neg (fun h ↦ Nat.not_lt.mpr h.2 ha)]
    by_cases hb : (m.cell (m.pc + 2)).toNat < 8
    · rw [State.get_of_lt m running hb, if_neg (fun h ↦ Nat.not_lt.mpr h.2 hb)]
      exact h ha
    · rw [Registers.get_eq_error hb]
      exact if_pos ⟨by rw [h0]; rfl, Nat.not_lt.mp hb⟩
  · rw [Registers.get_eq_error ha]
    exact if_pos ⟨by rw [h0]; rfl, Nat.not_lt.mp ha⟩

theorem agrees_of_set (h0 : (row i).operands[0]? = some .register)
    (h1 : (row i).operands[1]? ≠ some .register) (n : Machine) (value : UInt8)
    (he : i.action.effect (m.fetched i) m = n.registers.set (m.cell (m.pc + 1)) value >>=
      fun registers ↦ .ok ⟨{ n with registers }, .next, none⟩)
    (hr : (row i).refusal (.of m running) = none) (hp : (row i).printed (.of m running) = none)
    (hn : (row i).effect (.of m running) =
      { (State.of n true).setRegister (m.cell (m.pc + 1)) value with pc := (m.fetched i).next }) :
    Agrees m running i := by
  refine agrees_of_first h0 h1 (fun ha ↦ ?_) (fun ha ↦ ?_)
  · rw [he, Registers.set_eq_error ha]
    rfl
  · obtain ⟨registers, hs, hv⟩ := State.set_of_lt n ha value
    rw [he, hs]
    exact ⟨hr, hp, hn.trans (hv _ true).symm⟩

theorem agrees_pop : Agrees m running .pop := by
  -- The register is written last, so a value popped to the stack pointer stays.
  refine agrees_of_set rfl nofun m.dropTop m.top rfl rfl rfl ?_
  have hd := State.of_dropTop m true m.pc
  rw [show State.of m.dropTop true = (State.of m true).popped from hd]
  rfl

theorem agrees_call : Agrees m running .call := by
  refine agrees_of_register rfl
    (fun target ↦ if m.pc + 2 < 256 then
      .ok ⟨m.push (UInt8.ofNat (m.pc + 2)), .jump target.toNat, none⟩
      else .error (.outOfRangeAddress (m.pc + 2))) rfl ?_
  by_cases h : m.pc + 2 < 256
  · rw [if_pos h]
    exact ⟨if_neg (Nat.not_le.mpr h), rfl, (State.of_push m true _ _).symm⟩
  · rw [if_neg h]
    exact if_pos (Nat.not_lt.mp h)

theorem agrees_branch {opcode : UInt8} {taken : State → Bool}
    (hr : row i = branch opcode taken) (flow : UInt8 → Flow)
    (he : i.action.effect (m.fetched i) m =
      (m.registers.get (m.cell (m.pc + 1)) >>= fun target ↦ .ok ⟨m, flow target, none⟩))
    (hn : (m.fetched i).next = m.pc + 2)
    (hf : ∀ target, flow target =
      if taken (.of m running) then .jump target.toNat else .next) :
    Agrees m running i := by
  refine agrees_of_register (by rw [hr]; rfl) _ he ?_
  rw [hr]
  refine ⟨rfl, rfl, ?_⟩
  rw [State.after, hf, hn]
  simp only [branch]
  cases taken (.of m running) <;> rfl

def resultEffect (m : Machine) (first : UInt8) :
    Except Fault Arithmetic.Result → Except Fault Effect
  | .error fault => .error fault
  | .ok (.register value) =>
    m.registers.set first value >>= fun registers ↦ .ok ⟨{ m with registers }, .next, none⟩
  | .ok (.flags value) => .ok ⟨{ m with registers := m.registers.setFlags value }, .next, none⟩

theorem effect_arithmetic {x : Arithmetic} (ha : i.action = .arithmetic)
    (hl : i.slots.length = 2) (hx : Arithmetic.ofOpcode i.opcode = .ok x) :
    i.action.effect (m.fetched i) m =
      (m.registers.get (m.cell (m.pc + 1)) >>= fun a ↦
        m.registers.get (m.cell (m.pc + 2)) >>= fun b ↦
          resultEffect m (m.cell (m.pc + 1)) (x.compute a b)) := by
  have h0 : (m.fetched i).operand 0 = m.cell (m.pc + 1) := m.fetched_operand (by omega)
  have h1 : (m.fetched i).operand 1 = m.cell (m.pc + 2) := m.fetched_operand (by omega)
  have hf : (m.fetched i).opcode = i.opcode := rfl
  rw [ha, Action.effect, hf, hx, h0, h1]
  simp only [Registers.combine, bind, Except.bind]
  cases m.registers.get (m.cell (m.pc + 1)) with
  | error fault => rfl
  | ok a =>
    cases m.registers.get (m.cell (m.pc + 2)) with
    | error fault => rfl
    | ok b =>
      dsimp only
      rcases x.compute a b with fault | value | value <;> rfl

def Computes (r : Row) (s : State) : Except Fault Arithmetic.Result → Prop
  | .error fault => r.refusal s = some fault
  | .ok (.register value) =>
    r.refusal s = none ∧ r.effect s = (s.setRegister s.first value).advance 3
  | .ok (.flags value) => r.refusal s = none ∧ r.effect s = { s with flags := value }.advance 3

theorem agrees_arithmetic (x : Arithmetic) (ha : i.action = .arithmetic)
    (h0 : (row i).operands = [.register, .register]) (hl : i.slots.length = 2)
    (hx : Arithmetic.ofOpcode i.opcode = .ok x) (hp : (row i).printed (.of m running) = none)
    (h : Computes (row i) (.of m running)
      (x.compute ((State.of m running).register (m.cell (m.pc + 1)))
        ((State.of m running).register (m.cell (m.pc + 2))))) :
    Agrees m running i := by
  refine agrees_of_registers h0 _ (effect_arithmetic ha hl hx) fun hlt ↦ ?_
  have hn : (m.fetched i).next = m.pc + 3 := by rw [m.fetched_next, hl]
  generalize x.compute ((State.of m running).register (m.cell (m.pc + 1)))
    ((State.of m running).register (m.cell (m.pc + 2))) = result at h ⊢
  rcases result with fault | value | value
  · exact h
  · obtain ⟨registers, hs, hv⟩ := State.set_of_lt m hlt value
    rw [resultEffect, hs]
    refine ⟨h.1, hp, ?_⟩
    rw [State.after, hn, h.2]
    exact (hv _ true).symm
  · refine ⟨h.1, hp, ?_⟩
    rw [State.after, hn, h.2]
    rfl

theorem compare_eq (a b : UInt8) :
    Arithmetic.comparison a b =
      match compare a.toNat b.toNat with | .eq => 0b001 | .lt => 0b010 | .gt => 0b011 := by
  rcases Nat.lt_trichotomy a.toNat b.toNat with h | h | h
  · rw [Nat.compare_eq_lt.mpr h]
    have : a ≠ b := fun he ↦ by simp [he] at h
    simp [Arithmetic.comparison, this, UInt8.lt_iff_toNat_lt, h, Flags.less]
  · rw [Nat.compare_eq_eq.mpr h]
    simp [Arithmetic.comparison, UInt8.toNat_inj.mp h, Flags.equal]
  · rw [Nat.compare_eq_gt.mpr h]
    have : a ≠ b := fun he ↦ by simp [he] at h
    simp [Arithmetic.comparison, this, UInt8.lt_iff_toNat_lt, Nat.not_lt_of_gt h, Flags.greater]

theorem add_eq (a b : UInt8) : a + b = UInt8.ofNat (a.toNat + b.toNat) := by
  simp

theorem sub_eq (a b : UInt8) : a - b = UInt8.ofNat (256 - b.toNat + a.toNat) := by
  rw [← UInt8.toNat_inj, UInt8.toNat_sub, UInt8.toNat_ofNat']

theorem mul_eq (a b : UInt8) : a * b = UInt8.ofNat (a.toNat * b.toNat) := by
  simp

theorem div_eq (a b : UInt8) : a / b = UInt8.ofNat (a.toNat / b.toNat) := by
  rw [← UInt8.toNat_inj, UInt8.toNat_div, UInt8.toNat_ofNat', Nat.mod_eq_of_lt]
  exact Nat.lt_of_le_of_lt (Nat.div_le_self _ _) a.toNat_lt

theorem agrees (i : Instruction) : Agrees m running i := by
  cases i with
  | halt => exact ⟨rfl, rfl, rfl⟩
  | ret => exact ⟨rfl, rfl, (State.of_dropTop m true _).symm⟩
  | push =>
    exact agrees_of_register rfl (fun value ↦ .ok ⟨m.push value, .next, none⟩) rfl
      ⟨rfl, rfl, (State.of_push m true _ _).symm⟩
  | pop => exact agrees_pop
  | print =>
    exact agrees_of_register rfl (fun value ↦ .ok ⟨m, .next, some value⟩) rfl ⟨rfl, rfl, rfl⟩
  | call => exact agrees_call
  | jump => exact agrees_branch rfl _ rfl rfl fun _ ↦ rfl
  | jumpIfEqual =>
    exact agrees_branch rfl _ rfl rfl fun _ ↦
      if_congr decide_eq_true_iff.symm rfl rfl
  | jumpIfNotEqual =>
    exact agrees_branch rfl _ rfl rfl fun _ ↦
      if_congr decide_eq_true_iff.symm rfl rfl
  | loadImmediate => exact agrees_of_set rfl nofun m _ rfl rfl rfl rfl
  | add => exact agrees_arithmetic .add rfl rfl rfl rfl rfl ⟨rfl, by rw [add_eq]; rfl⟩
  | sub => exact agrees_arithmetic .sub rfl rfl rfl rfl rfl ⟨rfl, by rw [sub_eq]; rfl⟩
  | mul => exact agrees_arithmetic .mul rfl rfl rfl rfl rfl ⟨rfl, by rw [mul_eq]; rfl⟩
  | div =>
    refine agrees_arithmetic .div rfl rfl rfl rfl rfl ?_
    by_cases hb : (State.of m running).register (m.cell (m.pc + 2)) = 0
    · rw [Arithmetic.compute, if_pos hb]
      exact if_pos hb
    · rw [Arithmetic.compute, if_neg hb, div_eq]
      exact ⟨if_neg hb, rfl⟩
  | compare => exact agrees_arithmetic .compare rfl rfl rfl rfl rfl ⟨rfl, by rw [compare_eq]; rfl⟩

theorem eq_print_of_printed {i : Instruction} {s : State} {value : UInt8}
    (h : (row i).printed s = some value) : i = .print := by
  cases i <;> first | rfl | cases h

theorem fetch_eq_map (m : Machine) (running : Bool) :
    (State.of m running).fetch = m.fetch.map fun x ↦ row x.1 := by
  have hc : (State.of m running).code m.pc = m.cell m.pc := rfl
  have hpc : (State.of m running).pc = m.pc := rfl
  rw [State.fetch, m.fetch_eq, hpc, hc, find_row]
  by_cases h : m.pc < 256
  · rw [if_neg (by omega), if_pos h]
    cases ofOpcode? (m.cell m.pc) with
    | none => rfl
    | some i =>
      simp only [Option.map_some, operands_row]
      by_cases hn : m.pc + 1 + i.slots.length ≤ 256
      · rw [if_neg (by omega), if_pos hn]
        rfl
      · rw [if_pos (by omega), if_neg hn]
        rfl
  · rw [if_pos (by omega), if_neg h]
    rfl

end InstructionTable

namespace Computer

open InstructionTable

def view (c : Computer) : State :=
  .of c.machine (c.status = .running)

variable {c : Computer} {b : Bool}

theorem ofOpcode?_code (c : Computer) {i : Instruction}
    (h : c.machine.cell c.machine.pc = i.opcode) :
    Instruction.ofOpcode? (c.view.code c.view.pc) = some i := by
  have hv : c.view.code c.view.pc = c.machine.cell c.machine.pc := rfl
  rw [hv, h, Instruction.ofOpcode?_opcode]

/-- What becomes of a step by the row of its instruction, once that is fetched. -/
inductive Turn (c : Computer) (i : Instruction) : Prop
  | refused {fault : Fault} (hf : (row i).fault? c.view = some fault)
      (hs : c.step = ⟨.error fault, c.tell (.executing c.machine)⟩)
  | unprinted {value : UInt8} (hf : (row i).fault? c.view = none)
      (hp : (row i).printed c.view = some value) (ha : ¬ (c.output.print value).isOk)
      (hs : c.step.result = .error .output) (hv : c.step.computer.view = c.view)
      (ho : c.step.computer.output = c.output.offer (some value))
  | carriedOut (hf : (row i).fault? c.view = none)
      (ha : ∀ value, (row i).printed c.view = some value → (c.output.print value).isOk)
      (hs : c.step.result = .ok ((row i).effect c.view).running)
      (hv : c.step.computer.view = (row i).effect c.view)
      (ho : c.step.computer.output = c.output.offer ((row i).printed c.view))

theorem turn_of_fetch {i : Instruction} {f : Fetched} (hf : c.machine.fetch = .ok (i, f)) :
    c.Turn i := by
  obtain ⟨-, -, rfl⟩ := Machine.fetch_eq_ok_iff.mp hf
  have ha : Answers (row i) c.view (c.machine.fetched i) ((row i).fault? c.view)
      (i.action.effect (c.machine.fetched i) c.machine) := agrees i
  have hs := step_of_fetch hf
  generalize i.action.effect (c.machine.fetched i) c.machine = effect at ha hs
  rcases effect with fault | ⟨machine, flow, printed⟩
  · exact .refused ha hs
  · obtain ⟨hn, hp, he⟩ := ha
    have hrunning : ((row i).effect c.view).running = decide (flow ≠ .halt) := by
      rw [he]
      cases flow <;> rfl
    have hview (d : Computer) :
        (d.complete (c.machine.fetched i) machine flow).view = (row i).effect c.view := by
      rw [he]
      cases flow <;> rfl
    have hcarried {d : Computer}
        (hd : c.step = ⟨.ok (flow ≠ .halt), d.complete (c.machine.fetched i) machine flow⟩)
        (ho : d.output = c.output.offer printed)
        (hok : ∀ value, printed = some value → (c.output.print value).isOk) : c.Turn i := by
      refine .carriedOut hn ?_ ?_ ?_ ?_
      · rw [hp]
        exact hok
      · rw [hd, hrunning]
      · rw [hd]
        exact hview d
      · rw [hd, hp, ← ho]
        exact output_complete _ _ _ _
    cases printed with
    | none => exact hcarried hs rfl nofun
    | some value =>
      dsimp only at hs
      cases ho : c.output.print value with
      | error output =>
        rw [ho] at hs
        refine .unprinted hn hp (by rw [ho]; nofun) ?_ ?_ ?_ <;> rw [hs]
        · rfl
        · exact (Output.offer_of_error ho).symm
      | ok output =>
        rw [ho] at hs
        refine hcarried hs (Output.offer_of_ok ho).symm ?_
        intro other hother
        cases hother
        rw [ho]
        rfl

/-- A step that succeeds has the effect that the table tells. -/
theorem view_step (h : c.step.result = .ok b) :
    ∃ i, Instruction.ofOpcode? (c.view.code c.view.pc) = some i ∧
      c.view.pc + 1 + (row i).operands.length ≤ 256 ∧ (row i).fault? c.view = none ∧
      c.step.computer.view = (row i).effect c.view := by
  cases hf : c.machine.fetch with
  | error fault =>
    rw [step_of_fetch_error hf] at h
    cases h
  | ok x =>
    obtain ⟨i, f⟩ := x
    obtain ⟨hn, hc, -⟩ := Machine.fetch_eq_ok_iff.mp hf
    rw [← operands_row] at hn
    cases turn_of_fetch hf with
    | refused _ hs =>
      rw [hs] at h
      cases h
    | unprinted _ _ _ hs _ _ => cases hs.symm.trans h
    | carriedOut hfault _ _ hv _ => exact ⟨i, c.ofOpcode?_code hc, hn, hfault, hv⟩

theorem view_step_error {fault : Fault} (h : c.step.result = .error fault) :
    c.machine.fetch = .error fault ∨
      ∃ i, Instruction.ofOpcode? (c.view.code c.view.pc) = some i ∧
        c.view.pc + 1 + (row i).operands.length ≤ 256 ∧
        ((row i).fault? c.view = some fault ∨ i = .print ∧ fault = .output) := by
  cases hf : c.machine.fetch with
  | error other =>
    rw [step_of_fetch_error hf] at h
    cases h
    exact .inl rfl
  | ok x =>
    obtain ⟨i, f⟩ := x
    obtain ⟨hn, hc, -⟩ := Machine.fetch_eq_ok_iff.mp hf
    rw [← operands_row] at hn
    refine .inr ⟨i, c.ofOpcode?_code hc, hn, ?_⟩
    cases turn_of_fetch hf with
    | refused hfault hs =>
      rw [hs] at h
      cases h
      exact .inl hfault
    | unprinted _ hp _ hs _ _ =>
      cases hs.symm.trans h
      exact .inr ⟨eq_print_of_printed hp, rfl⟩
    | carriedOut _ _ hs _ _ => cases hs.symm.trans h

theorem step_of_row {i : Instruction} {f : Fetched} (hf : c.machine.fetch = .ok (i, f))
    (hn : (row i).fault? c.view = none)
    (ho : ∀ value, (row i).printed c.view = some value → (c.output.print value).isOk) :
    c.step.result = .ok ((row i).effect c.view).running ∧
      c.step.computer.view = (row i).effect c.view ∧
      c.step.computer.output = c.output.offer ((row i).printed c.view) := by
  cases turn_of_fetch hf with
  | refused hfault _ => cases hn.symm.trans hfault
  | unprinted _ hp hprint => exact absurd (ho _ hp) hprint
  | carriedOut _ _ hs hv hout => exact ⟨hs, hv, hout⟩

theorem step_of_fault {i : Instruction} {f : Fetched} {fault : Fault}
    (hf : c.machine.fetch = .ok (i, f)) (hn : (row i).fault? c.view = some fault) :
    c.step = ⟨.error fault, c.tell (.executing c.machine)⟩ := by
  cases turn_of_fetch hf with
  | refused hfault hs =>
    cases hn.symm.trans hfault
    exact hs
  | unprinted hfault => cases hn.symm.trans hfault
  | carriedOut hfault => cases hn.symm.trans hfault

/-- A step goes by the row of the fetched instruction. -/
theorem verdict_of_fetch {i : Instruction} {f : Fetched} (hf : c.machine.fetch = .ok (i, f)) :
    let verdict := (row i).verdict (fun value ↦ (c.output.print value).isOk) c.view
    c.step.result = verdict.result ∧ c.step.computer.view = verdict.state ∧
      c.step.computer.output = c.output.offer verdict.printed := by
  intro verdict
  cases turn_of_fetch hf with
  | refused hfault hs =>
    rw [show verdict = _ from Row.verdict_of_fault hfault, hs]
    exact ⟨rfl, rfl, rfl⟩
  | unprinted hfault hp ha hs hv ho =>
    rw [show verdict = _ from Row.verdict_of_not_accepted hfault hp ha]
    exact ⟨hs, hv, ho⟩
  | carriedOut hfault ha hs hv ho =>
    rw [show verdict = _ from Row.verdict_of_accepted hfault ha]
    exact ⟨hs, hv, ho⟩

/-- A step of a computer is a step by the instruction table. -/
theorem step_eq_table (c : Computer) :
    let verdict := (State.of c.machine (c.status = .running)).step fun value ↦
      (c.output.print value).isOk
    c.step.result = verdict.result ∧
      State.of c.step.computer.machine (c.step.computer.status = .running) = verdict.state ∧
      c.step.computer.output = c.output.offer verdict.printed := by
  simp only [State.step, fetch_eq_map]
  cases hf : c.machine.fetch with
  | error fault =>
    rw [step_of_fetch_error hf]
    exact ⟨rfl, rfl, rfl⟩
  | ok x =>
    obtain ⟨i, f⟩ := x
    exact verdict_of_fetch hf

end Computer

end ByteMachine
