import ByteMachine.Proofs.GuardedStep
import ByteMachine.Proofs.Sessions
import ByteMachine.Proofs.TableAgreement

namespace ByteMachine

open InstructionTable

def Compared (flags : UInt8) : Prop :=
  flags = Flags.equal ∨ flags = Flags.less ∨ flags = Flags.greater

theorem Compared.ne_zero {flags : UInt8} (h : Compared flags) : flags ≠ 0 := by
  obtain rfl | rfl | rfl := h <;> decide

theorem compared_comparison (a b : UInt8) : Compared (Arithmetic.comparison a b) := by
  rw [Arithmetic.comparison]
  split
  · exact .inl rfl
  · split
    · exact .inr (.inl rfl)
    · exact .inr (.inr rfl)

/-- What may become of the program counter and the flags. -/
structure Follows (m n : Machine) : Prop where
  pc : m.pc ≤ 256 → n.pc ≤ 256
  flags : n.registers.flags = m.registers.flags ∨ Compared n.registers.flags

namespace Follows

variable {k m n : Machine}

theorem refl (m : Machine) : Follows m m :=
  ⟨id, .inl rfl⟩

theorem trans (h : Follows k m) (h' : Follows m n) : Follows k n := by
  refine ⟨h'.pc ∘ h.pc, ?_⟩
  obtain hf | hf := h'.flags
  · rw [hf]
    exact h.flags
  · exact .inr hf

theorem ne_zero (h : Follows m n) (hm : m.registers.flags ≠ 0) : n.registers.flags ≠ 0 := by
  obtain hf | hf := h.flags
  · rwa [hf]
  · exact hf.ne_zero

end Follows

section

variable {s : State} {i : Instruction}

theorem compared_effect (s : State) : Compared ((row .compare).effect s).flags := by
  simp only [row, State.advance]
  cases compare (s.register s.first).toNat (s.register s.second).toNat with
  | eq => exact .inl rfl
  | lt => exact .inr (.inl rfl)
  | gt => exact .inr (.inr rfl)

theorem flags_effect (s : State) (hi : i ≠ .compare) : ((row i).effect s).flags = s.flags := by
  cases i with
  | compare => exact absurd rfl hi
  | jump | jumpIfEqual | jumpIfNotEqual =>
    obtain h | h := effect_branch _ _ s
    · exact (congrArg State.flags h).trans rfl
    · exact (congrArg State.flags h).trans rfl
  | _ => rfl

theorem pc_effect (h : s.pc + 1 + (row i).operands.length ≤ 256) :
    ((row i).effect s).pc ≤ 256 := by
  have hgoto : ∀ address, (s.goto address).pc ≤ 256 := fun address ↦
    Nat.le_of_lt address.toNat_lt
  cases i with
  | halt => exact Nat.le_of_succ_le h
  | jump | jumpIfEqual | jumpIfNotEqual =>
    obtain he | he := effect_branch _ _ s
    · exact (congrArg State.pc he).trans_le (hgoto _)
    · exact (congrArg State.pc he).trans_le h
  | call | ret => exact Nat.le_of_lt (UInt8.toNat_lt _)
  | _ => exact h

end

namespace Computer

variable {c d : Computer}

/-- The next step is a comparison and succeeds. -/
def Compares (c : Computer) : Prop :=
  c.machine.cell c.machine.pc = Instruction.compare.opcode ∧ c.step.result.isOk

theorem flags_of_compares (h : c.Compares) : Compared c.step.computer.machine.registers.flags := by
  obtain ⟨hc, ho⟩ := h
  cases hr : c.step.result with
  | error fault =>
    rw [hr] at ho
    cases ho
  | ok b =>
    obtain ⟨i, hi, -, -, hv⟩ := view_step hr
    cases (c.ofOpcode?_code hc).symm.trans hi
    have hf : c.step.computer.machine.registers.flags = ((row .compare).effect c.view).flags :=
      congrArg State.flags hv
    rw [hf]
    exact compared_effect c.view

/-- A step lemma for the program counter and the flags. -/
theorem follows_step (c : Computer) : Follows c.machine c.step.computer.machine := by
  cases hr : c.step.result with
  | error fault =>
    rw [(unchanged_of_step hr).machine]
    exact .refl _
  | ok b =>
    obtain ⟨i, hi, hn, -, hv⟩ := view_step hr
    have hpc : c.step.computer.machine.pc = ((row i).effect c.view).pc := congrArg State.pc hv
    have hf : c.step.computer.machine.registers.flags = ((row i).effect c.view).flags :=
      congrArg State.flags hv
    refine ⟨fun _ ↦ hpc.trans_le (pc_effect hn), ?_⟩
    rw [hf]
    by_cases h : i = .compare
    · subst h
      exact .inr (compared_effect _)
    · exact .inl (flags_effect _ h)

theorem follows_after {j k : Nat} (h : j ≤ k) : Follows (c.after j).machine (c.after k).machine := by
  obtain ⟨n, rfl⟩ := Nat.exists_eq_add_of_le h
  rw [after_add]
  exact after_induction (P := fun d ↦ Follows (c.after j).machine d.machine)
    (fun d hd ↦ hd.trans d.follows_step) (.refl _) n

end Computer

theorem Registers.flags_set {r s : Registers} {index value : UInt8}
    (h : r.set index value = .ok s) : s.flags = r.flags := by
  rw [set] at h
  split at h
  · cases h
    rfl
  · cases h

theorem Registers.flags_combine {r s : Registers} {op : Arithmetic} {first second : UInt8}
    (h : r.combine op first second = .ok s) :
    op = .compare ∧ Compared s.flags ∨ op ≠ .compare ∧ s.flags = r.flags := by
  obtain ⟨a, -, h⟩ := bind_eq_ok_iff.mp h
  obtain ⟨b, -, h⟩ := bind_eq_ok_iff.mp h
  obtain ⟨result, hr, h⟩ := bind_eq_ok_iff.mp h
  cases op with
  | compare =>
    cases hr
    cases h
    exact .inl ⟨rfl, compared_comparison a b⟩
  | add | sub | mul =>
    cases hr
    exact .inr ⟨by decide, Registers.flags_set h⟩
  | div =>
    rw [Arithmetic.compute] at hr
    split at hr
    · cases hr
    · cases hr
      exact .inr ⟨by decide, Registers.flags_set h⟩

namespace Computer

theorem follows_combine (c : Computer) (op : Arithmetic) (first second : UInt8) :
    Follows c.machine ((Operation.combine op first second).outcome c).computer.machine := by
  rw [Operation.outcome_combine]
  cases hr : c.machine.registers.combine op first second with
  | error fault => exact .refl _
  | ok registers =>
    refine ⟨id, ?_⟩
    obtain ⟨-, hf⟩ | ⟨-, hf⟩ := Registers.flags_combine hr
    · exact .inr hf
    · exact .inl hf

theorem machine_load {c d : Computer} {program : List UInt8} (h : c.load program = .ok d) :
    d.machine.pc = c.machine.pc ∧ d.machine.registers = c.machine.registers := by
  obtain ⟨memory, -, h⟩ := bind_eq_ok_iff.mp h
  cases h
  exact ⟨rfl, rfl⟩

theorem machine_loadFrom (c : Computer) (source : Source) :
    (c.loadFrom source).computer.machine.pc = c.machine.pc ∧
      (c.loadFrom source).computer.machine.registers = c.machine.registers := by
  obtain ⟨memory, log, hc⟩ := c.computer_loadFrom source
  rw [hc]
  exact ⟨rfl, rfl⟩

theorem follows_call {c : Computer} {call : Call} {outcome : Outcome Reply}
    (h : c.call call = some outcome) : Follows c.machine outcome.computer.machine := by
  cases call with
  | load source =>
    cases h
    obtain ⟨hpc, hr⟩ := c.machine_loadFrom source
    exact ⟨fun hm ↦ hpc ▸ hm, .inl (congrArg Registers.flags hr)⟩
  | step =>
    cases h
    exact c.follows_step
  | run =>
    obtain ⟨ended, hr, rfl⟩ := Option.map_eq_some_iff.mp h
    exact run_induction (P := fun d ↦ Follows c.machine d.machine)
      (fun d hd ↦ hd.trans d.follows_step) (fun _ hd ↦ hd) (fun _ _ hd ↦ hd) hr (.refl _)
  | combine op first second =>
    cases h
    exact c.follows_combine op first second

end Computer

def Call.Compares (c : Computer) : Call → Prop
  | load _ => False
  | step => c.Compares
  | run => ∃ k, c.GoesOn k ∧ (∀ limit ∈ c.stepLimit, k < limit) ∧ (c.after k).Compares
  | combine op first second =>
    op = .compare ∧ ((Operation.combine op first second).outcome c).result.isOk

namespace Computer

theorem ne_zero_of_compares {c : Computer} {call : Call} {outcome : Outcome Reply}
    (h : c.call call = some outcome) (hc : call.Compares c) :
    outcome.computer.machine.registers.flags ≠ 0 := by
  cases call with
  | load source => exact hc.elim
  | step =>
    cases h
    exact (flags_of_compares hc).ne_zero
  | run =>
    obtain ⟨ended, hr, rfl⟩ := Option.map_eq_some_iff.mp h
    obtain ⟨n, hn, hbefore⟩ := ends_after (ends_of_run hr)
    obtain ⟨k, hk, hl, hc⟩ := hc
    -- The comparison is one of the steps of the run, and all that comes behind it only follows.
    have hf : Follows (c.after (k + 1)).machine ended.computer.machine := by
      rw [hn]
      exact follows_after (hbefore k hk hl)
    refine hf.ne_zero ?_
    rw [after_succ]
    exact (flags_of_compares hc).ne_zero
  | combine op first second =>
    cases h
    obtain ⟨rfl, ho⟩ := hc
    rw [Operation.outcome_combine] at ho ⊢
    cases hr : c.machine.registers.combine .compare first second with
    | error fault =>
      rw [hr] at ho
      cases ho
    | ok registers =>
      obtain ⟨-, hf⟩ | ⟨hne, -⟩ := Registers.flags_combine hr
      · exact hf.ne_zero
      · exact absurd rfl hne

theorem follows_session {c d : Computer} {calls : List Call} {replies : List (Except Fault Reply)}
    (h : c.session calls = some (replies, d)) : Follows c.machine d.machine :=
  session_induction (P := fun d ↦ Follows c.machine d.machine)
    (fun _ _ _ hd ho ↦ hd.trans (follows_call ho)) h (.refl _)

theorem ne_zero_of_session {c d e : Computer} {call : Call} {before after : List Call}
    {first replies : List (Except Fault Reply)}
    (h : c.session (before ++ call :: after) = some (replies, e))
    (hb : c.session before = some (first, d)) (hc : call.Compares d) :
    e.machine.registers.flags ≠ 0 := by
  obtain ⟨between, _, last, hb', ha, -⟩ := session_append h
  cases hb.symm.trans hb'
  obtain ⟨outcome, rest, ho, hr, -⟩ := session_cons ha
  exact (follows_session hr).ne_zero (ne_zero_of_compares ho hc)

end Computer

/-- What the faults of a step say about the machine. The others are none of a step's. -/
def Fault.Describes (m : Machine) : Fault → Prop
  | unknownOpcode opcode pc =>
    pc = m.pc ∧ pc < 256 ∧ opcode = m.cell pc ∧ Instruction.ofOpcode? opcode = none
  | outOfRangeRegister index =>
    8 ≤ index.toNat ∧ ∃ i k, Instruction.ofOpcode? (m.cell m.pc) = some i ∧
      i.slots[k]? = some .register ∧ m.pc + 1 + k < 256 ∧ index = m.cell (m.pc + 1 + k)
  | outOfRangeAddress address => address = 256
  | divisionByZero => m.cell m.pc = Instruction.div.opcode
  | output => m.cell m.pc = Instruction.print.opcode
  | unsupportedOperation _ | stepLimitExceeded _ | load _ => False

theorem Machine.describes_fetch {m : Machine} {fault : Fault} (hpc : m.pc ≤ 256)
    (h : m.fetch = .error fault) : fault.Describes m := by
  rw [m.fetch_eq] at h
  by_cases hlt : m.pc < 256
  · rw [if_pos hlt] at h
    cases hi : Instruction.ofOpcode? (m.cell m.pc) with
    | none =>
      rw [hi] at h
      cases h
      exact ⟨rfl, hlt, rfl, hi⟩
    | some i =>
      rw [hi] at h
      dsimp only at h
      split at h
      · cases h
      · cases h
        rfl
  · rw [if_neg hlt] at h
    cases h
    exact Nat.le_antisymm hpc (Nat.not_lt.mp hlt)

theorem InstructionTable.describes_refusal {s : State} {i : Instruction} {fault : Fault}
    (hn : s.pc + 1 + (row i).operands.length ≤ 256) (h : (row i).refusal s = some fault) :
    i = .div ∧ fault = .divisionByZero ∨
      i = .call ∧ s.pc = 254 ∧ fault = .outOfRangeAddress 256 := by
  cases i with
  | div =>
    have h : (if s.register s.second = 0 then some Fault.divisionByZero else none) = some fault := h
    split at h
    · cases h
      exact .inl ⟨rfl, rfl⟩
    · cases h
  | call =>
    have h : (if 256 ≤ s.pc + 2 then some (Fault.outOfRangeAddress (s.pc + 2)) else none) =
        some fault := h
    have hn : s.pc + 2 ≤ 256 := hn
    split at h
    · next hp =>
      cases h
      exact .inr ⟨rfl, by omega, by rw [Nat.le_antisymm hn hp]⟩
    · cases h
  | _ => cases h

namespace Computer

theorem describes_step {c : Computer} {fault : Fault} (hpc : c.machine.pc ≤ 256)
    (h : c.step.result = .error fault) : fault.Describes c.machine := by
  obtain hf | ⟨i, hi, hn, hf | ⟨rfl, rfl⟩⟩ := view_step_error h
  · exact Machine.describes_fetch hpc hf
  · obtain ⟨k, hk, h8, rfl⟩ | hr := Row.fault?_cases hf
    · rw [operands_row] at hk hn
      obtain ⟨hlt, -⟩ := List.getElem?_eq_some_iff.mp hk
      have hpc : c.machine.pc + 1 + k < 256 := Nat.lt_of_lt_of_le (Nat.add_lt_add_left hlt _) hn
      exact ⟨h8, i, k, hi, hk, hpc, rfl⟩
    · obtain ⟨rfl, rfl⟩ | ⟨-, -, rfl⟩ := describes_refusal hn hr
      · exact (Instruction.opcode_eq_of_ofOpcode? hi).symm
      · rfl
  · exact (Instruction.opcode_eq_of_ofOpcode? hi).symm

/-- A run fails as its last step does, and leaves the machine that step was to work on, or it fails
because it has taken as many steps as it may. -/
theorem describes_run {c : Computer} {outcome : Outcome Nat} {fault : Fault}
    (hpc : c.machine.pc ≤ 256) (h : c.run = some outcome) (hf : outcome.result = .error fault) :
    fault.Describes outcome.computer.machine ∨
      ∃ limit, c.stepLimit = some limit ∧ fault = .stepLimitExceeded limit := by
  have he := ends_of_run h
  cases he with
  | halt n => cases hf
  | error n other _ _ ha =>
    cases hf
    have hm : (c.after (n + 1)).machine = (c.after n).machine := by
      rw [after_succ]
      exact (unchanged_of_step ha).machine
    have hn : (c.after n).machine.pc ≤ 256 :=
      (follows_after (c := c) n.zero_le).pc hpc
    have hx := describes_step hn ha
    rw [← hm] at hx
    exact .inl hx
  | limit limit hl =>
    cases hf
    exact .inr ⟨limit, hl, rfl⟩

/-- Whatever calls have been made on a new computer, its program counter is at most one past memory
and its flags are those of a comparison or zero, and not zero any more once a comparison has
succeeded. The next step goes through, as do all after it, and the fault that a step or a run fails
with describes the machine. -/
theorem session_safe (settings : Settings) (output : Output) (log : Log) (calls : List Call)
    (replies : List (Except Fault Reply)) (c : Computer)
    (h : (new settings output log).session calls = some (replies, c)) :
    c.machine.pc ≤ 256 ∧
    c.machine.registers.flags ∈ ([0, 1, 2, 3] : List UInt8) ∧
    (∀ before call after first d, calls = before ++ call :: after →
      (new settings output log).session before = some (first, d) → call.Compares d →
        c.machine.registers.flags ≠ 0) ∧
    (c.machine.trace? = some (Event.executing c.machine).message ∧
      ∀ n, (c.after n).step? = some (c.after n).step) ∧
    (∀ fault, c.step.result = .error fault → fault.Describes c.machine) ∧
    ∀ outcome fault, c.run = some outcome → outcome.result = .error fault →
      fault.Describes outcome.computer.machine ∨
        ∃ limit, c.stepLimit = some limit ∧ fault = .stepLimitExceeded limit := by
  have hf := follows_session h
  have hpc : c.machine.pc ≤ 256 := hf.pc (Nat.zero_le _)
  refine ⟨hpc, ?_, ?_, ⟨Machine.trace?_eq_some hpc, fun n ↦ (c.after n).step?_eq_some⟩,
    fun _ ↦ describes_step hpc, fun _ _ ↦ describes_run hpc⟩
  · obtain hz | hc | hc | hc := hf.flags
    · exact List.mem_cons.mpr (.inl hz)
    · rw [hc]
      decide
    · rw [hc]
      decide
    · rw [hc]
      decide
  · rintro before call after first d rfl hb hc
    exact ne_zero_of_session h hb hc

def comparison : Option (List (Except Fault Reply) × Computer) :=
  (new { stepLimit := some 2 } (.lines "" none) ⟨.warn, #[]⟩).session
    [.combine .compare 0 1, .load (.bytes [Instruction.compare.opcode, 0, 1]), .step, .run]

theorem session_safe_comparison :
    ∃ replies c, comparison = some (replies, c) ∧ c.machine.pc ≤ 256 ∧
      c.machine.registers.flags ≠ 0 ∧ c.step? = some c.step ∧
      (Fault.unknownOpcode 0 3).Describes c.machine := by
  have hf : comparison.map (·.2.step.result) = some (.error (.unknownOpcode 0 3)) := by
    decide +kernel
  obtain ⟨⟨replies, c⟩, hc, hf⟩ := Option.map_eq_some_iff.mp hf
  obtain ⟨hpc, -, hflags, ⟨-, hstep⟩, hfault, -⟩ := session_safe _ _ _ _ _ _ hc
  exact ⟨replies, c, hc, hpc, hflags [] _ _ _ _ rfl rfl ⟨rfl, rfl⟩, hstep 0, hfault _ hf⟩

end Computer

end ByteMachine
