import ByteMachine.Proofs.AssemblyExecution
import ByteMachine.Proofs.Profiles

namespace ByteMachine

theorem Instruction.length_slots_pos {i : Instruction} {flags : UInt8} (hi : i ≠ .halt)
    (hj : i.jumps flags = false) : 0 < i.slots.length := by
  cases i with
  | halt => exact absurd rfl hi
  | ret => cases hj
  | _ => exact Nat.zero_lt_succ _

namespace Computer

variable {c : Computer} {n : Nat}

/-- The next step carries out an instruction that replaces the program counter. -/
def Transfers (c : Computer) : Prop :=
  ∃ i, c.executed? = some i ∧ i.jumps c.machine.registers.flags = true

/-- A run of the computer carries out an instruction behind `k` others. -/
structure CarriesOut (c : Computer) (k : Nat) : Prop where
  goesOn : c.GoesOn k
  limit : ∀ limit ∈ c.stepLimit, k < limit
  succeeds : ∃ running, c.answer k = .ok running

/-- The step lemma: without a jump the end of memory comes nearer by two cells, and is not
passed. -/
theorem pc_step_of_not_transfers (h : c.step.result = .ok true) (ht : ¬ c.Transfers) :
    c.machine.pc + 2 ≤ c.step.computer.machine.pc ∧ c.step.computer.machine.pc ≤ 256 := by
  obtain ⟨i, f, hf, he⟩ := executed?_of_result h
  have hi : i ≠ .halt := by
    obtain ⟨j, hj, hj'⟩ := executed?_of_running h
    cases he.symm.trans hj'
    exact hj
  have hj : i.jumps c.machine.registers.flags = false :=
    Bool.eq_false_of_not_eq_true fun hj ↦ ht ⟨i, he, hj⟩
  have hpos := Instruction.length_slots_pos hi hj
  have hend := (Machine.fetch_eq_ok_iff.mp hf).1
  rw [pc_of_fetch hf h hj]
  omega

/-- The run lemma, by induction on the number of steps. -/
theorem pc_after_of_not_transfers (hpc : c.machine.pc ≤ 256) (h : c.GoesOn n)
    (ht : ∀ k < n, ¬ (c.after k).Transfers) :
    c.machine.pc + 2 * n ≤ (c.after n).machine.pc ∧ (c.after n).machine.pc ≤ 256 := by
  induction n with
  | zero => exact ⟨Nat.le_refl _, hpc⟩
  | succ n ih =>
    have hn := ih (h.mono (Nat.le_succ n)) fun k hk ↦ ht k (Nat.lt_succ_of_lt hk)
    have hs := pc_step_of_not_transfers (h n (Nat.lt_succ_self n)) (ht n (Nat.lt_succ_self n))
    rw [after_succ]
    omega

theorem le_of_not_transfers (h : c.GoesOn n) (ht : ∀ k < n, ¬ (c.after k).Transfers) :
    n ≤ (256 - c.machine.pc) / 2 := by
  cases n with
  | zero => exact Nat.zero_le _
  | succ n =>
    have hpc : c.machine.pc < 256 := pc_lt_of_step (h 0 (Nat.zero_lt_succ n))
    have hend := pc_after_of_not_transfers (Nat.le_of_lt hpc) h ht
    omega

theorem GoesOn.behind {j : Nat} (h : c.GoesOn (j + n)) : (c.after j).GoesOn n := by
  intro k hk
  rw [answer, ← after_add]
  exact h (j + k) (by omega)

theorem carriesOut_of_goesOn (h : c.GoesOn n) (hl : ∀ limit ∈ c.stepLimit, n ≤ limit) {k : Nat}
    (hk : k < n) : c.CarriesOut k :=
  ⟨h.mono (Nat.le_of_lt hk), fun limit hm ↦ Nat.lt_of_lt_of_le hk (hl limit hm), true, h k hk⟩

theorem exists_transfers_of_carriesOut {j : Nat} (h : c.CarriesOut (j + 128)) :
    ∃ k, j ≤ k ∧ k < j + 128 ∧ (c.after k).Transfers := by
  by_contra hnone
  -- They end where memory does, and so the instruction behind them could not have been fetched.
  have hj : (c.after j).machine.pc < 256 := pc_lt_of_step (h.goesOn j (by omega))
  obtain ⟨running, hr⟩ := h.succeeds
  have hlast : (c.after (j + 128)).machine.pc < 256 := pc_lt_of_step hr
  have hend := pc_after_of_not_transfers (Nat.le_of_lt hj) h.goesOn.behind fun k hk ht ↦
    hnone ⟨j + k, by omega, by omega, by rwa [after_add]⟩
  rw [← after_add] at hend
  omega

theorem length_tried_of_not_transfers (h : ∀ k, c.CarriesOut k → ¬ (c.after k).Transfers) :
    ∃ outcome, c.run = some outcome ∧ (c.tried .run).length ≤ (256 - c.machine.pc) / 2 + 1 := by
  have hle : ∀ {n}, c.GoesOn n → (∀ limit ∈ c.stepLimit, n ≤ limit) →
      n ≤ (256 - c.machine.pc) / 2 :=
    fun hgo hl ↦ le_of_not_transfers hgo fun k hk ↦ h k (carriesOut_of_goesOn hgo hl hk)
  have hstop : ∀ {n}, c.GoesOn n → (∀ limit ∈ c.stepLimit, n < limit) → c.answer n ≠ .ok true →
      (c.tried .run).length ≤ (256 - c.machine.pc) / 2 + 1 := by
    intro n hgo hl ha
    rw [tried_of_stop hgo hl ha, List.length_map, List.length_range]
    exact Nat.succ_le_succ (hle hgo fun limit hm ↦ Nat.le_of_lt (hl limit hm))
  obtain ⟨outcome, he⟩ | ⟨hnone, hgo⟩ := c.ends_or_goesOn
  · refine ⟨outcome, run_of_ends he, ?_⟩
    cases he with
    | halt n hgo hl ha => exact hstop hgo hl (by rw [ha]; nofun)
    | error n fault hgo hl ha => exact hstop hgo hl (by rw [ha]; nofun)
    | limit limit hl hgo =>
      rw [tried_of_limit hl hgo, List.length_map, List.length_range]
      refine Nat.le_succ_of_le (hle hgo fun other hm ↦ ?_)
      cases hl.symm.trans hm
      exact Nat.le_refl limit
  · have hn := hle (hgo 129) (by rw [hnone]; nofun)
    omega

/-- Only jumps keep the machine running. Steps in a row that neither halt nor jump are at most half
as many as there are cells from the program counter on. So a run that never jumps ends, after at
most 129 attempts; and wherever a run has carried out 129 instructions in a row, one of them has
jumped. -/
theorem transfers_keep_running (c : Computer) :
    (∀ n, c.GoesOn n → (∀ k < n, ¬ (c.after k).Transfers) → n ≤ (256 - c.machine.pc) / 2) ∧
    ((∀ k, c.CarriesOut k → ¬ (c.after k).Transfers) →
      ∃ outcome, c.run = some outcome ∧ (c.tried .run).length ≤ 129) ∧
    ∀ j, c.CarriesOut (j + 128) → ∃ k, j ≤ k ∧ k < j + 129 ∧ (c.after k).Transfers := by
  refine ⟨fun n ↦ le_of_not_transfers, fun h ↦ ?_, fun j h ↦ ?_⟩
  · obtain ⟨outcome, hr, hlength⟩ := length_tried_of_not_transfers h
    exact ⟨outcome, hr, by omega⟩
  · obtain ⟨k, hj, hk, ht⟩ := exists_transfers_of_carriesOut h
    exact ⟨k, hj, by omega, ht⟩

/-- About to write the instruction that stands there once more, into the last two cells. -/
def repeating : Computer :=
  { new {} (.values #[]) ⟨.warn, #[]⟩ with
    machine :=
      ⟨Memory.blank.set 252 Instruction.push.opcode,
        ⟨#v[Instruction.push.opcode, 0, 0, 0, 0, 0, 0, 255], 0⟩, 252⟩ }

theorem transfers_keep_running_repeating :
    (repeating.GoesOn 2 ∧ 2 ≤ (256 - repeating.machine.pc) / 2) ∧
    (∃ outcome, repeating.run = some outcome ∧ (repeating.tried .run).length ≤ 129) ∧
    ∃ k, 5 ≤ k ∧ k < 134 ∧ ((holding .jump none).after k).Transfers := by
  have hanswers : repeating.answer 0 = .ok true ∧ repeating.answer 1 = .ok true ∧
      repeating.answer 2 = .error (.outOfRangeAddress 256) := by decide +kernel
  have hpush : (repeating.after 0).executed? = some .push ∧
      (repeating.after 1).executed? = some .push := by decide +kernel
  have hgo : repeating.GoesOn 2 := by
    intro k hk
    obtain rfl | rfl : k = 0 ∨ k = 1 := by omega
    · exact hanswers.1
    · exact hanswers.2.1
  have hstay (k : Nat) (hk : k < 2) : ¬ (repeating.after k).Transfers := by
    rintro ⟨i, hi, hj⟩
    obtain rfl | rfl : k = 0 ∨ k = 1 := by omega
    · cases hpush.1.symm.trans hi
      cases hj
    · cases hpush.2.symm.trans hi
      cases hj
  have hlast (k : Nat) (h : repeating.CarriesOut k) : k < 2 := by
    by_contra hk
    obtain rfl | hk : k = 2 ∨ 2 < k := by omega
    · obtain ⟨running, hr⟩ := h.succeeds
      cases hanswers.2.2.symm.trans hr
    · cases hanswers.2.2.symm.trans (h.goesOn 2 hk)
  have hjump : (holding .jump none).answer 0 = .ok true := by decide +kernel
  have hback : Alike ((holding .jump none).after 0) ((holding .jump none).after 1) :=
    ⟨Machine.ext rfl rfl rfl, rfl⟩
  have hone : (holding .jump none).GoesOn 1 := by
    intro k hk
    obtain rfl : k = 0 := by omega
    exact hjump
  have hever (n : Nat) : (holding .jump none).GoesOn n :=
    goesOn_of_alike (Nat.zero_lt_one) hback hone n
  obtain ⟨hlength, hrun, -⟩ := transfers_keep_running repeating
  obtain ⟨-, -, hwindow⟩ := transfers_keep_running (holding .jump none)
  exact ⟨⟨hgo, hlength 2 hgo hstay⟩, hrun fun k h ↦ hstay k (hlast k h),
    hwindow 5 ⟨hever _, nofun, true, hever 134 (5 + 128) (by omega)⟩⟩

end Computer

end ByteMachine
