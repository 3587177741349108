import ByteMachine.Proofs.Atomicity
import ByteMachine.Proofs.Recurrence

namespace ByteMachine.Computer

variable {c : Computer} {n : Nat}

theorem advance_patience : advance c.patience 0 c.start = advance c.patience 0 c := by
  obtain ⟨p, hp⟩ : ∃ p, c.patience = p + 1 := by
    rw [patience]
    cases c.stepLimit with
    | none => exact ⟨_, rfl⟩
    | some limit => exact ⟨_, rfl⟩
  rw [hp, advance_start]

theorem lt_patience {outcome : Outcome Nat} (h : c.GoesOn n)
    (hl : ∀ limit ∈ c.stepLimit, n ≤ limit)
    (he : ∀ fuel, advance (fuel + 1) n (c.after n) = .ended outcome) : n < c.patience := by
  rw [patience]
  cases hs : c.stepLimit with
  | some limit => exact Nat.lt_succ_of_le (hl limit hs)
  | none =>
    by_contra hn
    have hgo : c.GoesOn (n + 1) := goesOn_of_configurations (h.mono (Nat.not_lt.mp hn)) (n + 1)
    have hx : (c.after n).exhausted? n = none :=
      exhausted?_eq_none (by rw [stepLimit_after, hs]; nofun)
    have ha : (c.after n).step.result = .ok true := hgo n (by omega)
    have hnext := advance_succ 0 hx
    rw [he 0, ha] at hnext
    cases hnext

theorem run_of_ended {outcome : Outcome Nat} (h : c.GoesOn n)
    (hl : ∀ limit ∈ c.stepLimit, n ≤ limit)
    (he : ∀ fuel, advance (fuel + 1) n (c.after n) = .ended outcome) : c.run = some outcome := by
  obtain ⟨fuel, hp⟩ := Nat.exists_eq_add_of_lt (lt_patience h hl he)
  have hend := advance_after (fuel + 1) h hl
  rw [he, ← Nat.add_assoc, ← hp] at hend
  rw [run, advance_patience, hend]

theorem run_of_halt (h : c.GoesOn n) (hl : ∀ limit ∈ c.stepLimit, n < limit)
    (ha : c.answer n = .ok false) :
    c.run = some ⟨.ok (n + 1), (c.after (n + 1)).tell (.halted (n + 1))⟩ := by
  refine run_of_ended h (fun limit hm ↦ Nat.le_of_lt (hl limit hm)) fun fuel ↦ ?_
  have hr : (c.after n).step.result = .ok false := ha
  rw [advance_succ fuel (exhausted?_eq_none (by rwa [stepLimit_after])), hr, after_succ]

theorem run_of_error {fault : Fault} (h : c.GoesOn n) (hl : ∀ limit ∈ c.stepLimit, n < limit)
    (ha : c.answer n = .error fault) :
    c.run = some ⟨.error fault, (c.after (n + 1)).stop⟩ := by
  refine run_of_ended h (fun limit hm ↦ Nat.le_of_lt (hl limit hm)) fun fuel ↦ ?_
  have hr : (c.after n).step.result = .error fault := ha
  rw [advance_succ fuel (exhausted?_eq_none (by rwa [stepLimit_after])), hr, after_succ]

theorem run_of_limit {limit : Nat} (hl : c.stepLimit = some limit) (h : c.GoesOn limit) :
    c.run = some ⟨.error (.stepLimitExceeded limit),
      (c.after limit).stop.tell (.stopping (c.after limit).machine.pc limit)⟩ := by
  refine run_of_ended h (fun m hm ↦ ?_) fun fuel ↦ ?_
  · rw [hl] at hm
    cases hm
    exact Nat.le_refl limit
  · exact advance_of_exhausted fuel (exhausted?_eq_some (by rwa [stepLimit_after]))

theorem goesOn_or_stops (c : Computer) (n : Nat) :
    c.GoesOn n ∨ ∃ k < n, c.GoesOn k ∧ c.answer k ≠ .ok true := by
  induction n with
  | zero => exact .inl nofun
  | succ n ih =>
    obtain h | ⟨k, hk, h⟩ := ih
    · by_cases ha : c.answer n = .ok true
      · exact .inl (h.succ ha)
      · exact .inr ⟨n, by omega, h, ha⟩
    · exact .inr ⟨k, by omega, h⟩

inductive Ends (c : Computer) : Outcome Nat → Prop
  | halt (n : Nat) (h : c.GoesOn n) (hl : ∀ limit ∈ c.stepLimit, n < limit)
      (ha : c.answer n = .ok false) :
      Ends c ⟨.ok (n + 1), (c.after (n + 1)).tell (.halted (n + 1))⟩
  | error (n : Nat) (fault : Fault) (h : c.GoesOn n) (hl : ∀ limit ∈ c.stepLimit, n < limit)
      (ha : c.answer n = .error fault) : Ends c ⟨.error fault, (c.after (n + 1)).stop⟩
  | limit (limit : Nat) (hl : c.stepLimit = some limit) (h : c.GoesOn limit) :
      Ends c ⟨.error (.stepLimitExceeded limit),
        (c.after limit).stop.tell (.stopping (c.after limit).machine.pc limit)⟩

theorem run_of_ends {outcome : Outcome Nat} (h : Ends c outcome) : c.run = some outcome := by
  cases h with
  | halt n h hl ha => exact run_of_halt h hl ha
  | error n fault h hl ha => exact run_of_error h hl ha
  | limit limit hl h => exact run_of_limit hl h

theorem ends_of_stop (h : c.GoesOn n) (hl : ∀ limit ∈ c.stepLimit, n < limit)
    (ha : c.answer n ≠ .ok true) : ∃ outcome, Ends c outcome := by
  rcases hr : c.answer n with fault | _ | _
  · exact ⟨_, .error n fault h hl hr⟩
  · exact ⟨_, .halt n h hl hr⟩
  · exact absurd hr ha

theorem ends_of_stepLimit {limit : Nat} (hl : c.stepLimit = some limit) :
    ∃ outcome, Ends c outcome := by
  obtain h | ⟨k, hk, h, ha⟩ := c.goesOn_or_stops limit
  · exact ⟨_, .limit limit hl h⟩
  · refine ends_of_stop h (fun m hm ↦ ?_) ha
    rw [hl] at hm
    cases hm
    exact hk

theorem ends_or_goesOn (c : Computer) :
    (∃ outcome, Ends c outcome) ∨ c.stepLimit = none ∧ ∀ n, c.GoesOn n := by
  cases hl : c.stepLimit with
  | some limit => exact .inl (ends_of_stepLimit hl)
  | none =>
    by_cases hgo : ∀ n, c.GoesOn n
    · exact .inr ⟨rfl, hgo⟩
    · obtain ⟨n, hn⟩ := not_forall.mp hgo
      obtain h | ⟨k, -, h, ha⟩ := c.goesOn_or_stops n
      · exact absurd h hn
      · exact .inl (ends_of_stop h (by rw [hl]; nofun) ha)

theorem run_eq_none_iff : c.run = none ↔ c.stepLimit = none ∧ ∀ n, c.GoesOn n := by
  constructor
  · intro h
    obtain ⟨outcome, he⟩ | hgo := c.ends_or_goesOn
    · rw [run_of_ends he] at h
      cases h
    · exact hgo
  · intro h
    obtain ⟨hl, hgo⟩ := h
    have hp := advance_after 0 (hgo c.patience) (by rw [hl]; nofun)
    rw [Nat.add_zero] at hp
    rw [run, advance_patience, hp]
    rfl

theorem ends_of_run {outcome : Outcome Nat} (h : c.run = some outcome) : Ends c outcome := by
  obtain ⟨other, he⟩ | hgo := c.ends_or_goesOn
  · have hr := run_of_ends he
    rw [h] at hr
    cases hr
    exact he
  · rw [run_eq_none_iff.mpr hgo] at h
    cases h

theorem status_of_ends {outcome : Outcome Nat} (h : Ends c outcome) :
    outcome.computer.status = .halted := by
  cases h with
  | halt n h hl ha =>
    have hs := (status_of_step ha).mp
    rw [← after_succ] at hs
    cases hd : (c.after (n + 1)).status with
    | halted => exact hd
    | running => cases hs hd
  | error n fault h hl ha => rfl
  | limit limit hl h => rfl

theorem ends_after {outcome : Outcome Nat} (h : Ends c outcome) :
    ∃ n, outcome.computer.machine = (c.after n).machine ∧
      ∀ k, c.GoesOn k → (∀ limit ∈ c.stepLimit, k < limit) → k < n := by
  -- Behind the last step the computer does not go on.
  have hlast : ∀ {n}, c.answer n ≠ .ok true → ∀ k, c.GoesOn k → k < n + 1 := by
    intro n hn k hk
    by_contra h
    exact hn (hk n (by omega))
  cases h with
  | halt n h hl ha =>
    exact ⟨n + 1, rfl, fun k hk _ ↦ hlast (by rw [ha]; nofun) k hk⟩
  | error n fault h hl ha =>
    exact ⟨n + 1, rfl, fun k hk _ ↦ hlast (by rw [ha]; nofun) k hk⟩
  | limit limit hl h => exact ⟨limit, rfl, fun k _ hk ↦ hk limit hl⟩

theorem steps_of_ends {outcome : Outcome Nat} {limit : Nat} (hl : c.stepLimit = some limit)
    (h : Ends c outcome) :
    ∃ n ≤ limit, (∀ k < n, (c.answer k).isOk) ∧
      outcome.computer.machine = (c.after n).machine ∧
      outcome.computer.profile = (c.after n).profile := by
  cases h with
  | halt n h hn ha =>
    refine ⟨n + 1, hn limit hl, fun k hk ↦ ?_, rfl, rfl⟩
    obtain hk | rfl := Nat.lt_succ_iff_lt_or_eq.mp hk
    · rw [h k hk]
      rfl
    · rw [ha]
      rfl
  | error n fault h hn ha =>
    have hu := unchanged_of_step ha
    rw [← after_succ] at hu
    refine ⟨n, Nat.le_of_lt (hn limit hl), fun k hk ↦ ?_, hu.machine, hu.profile⟩
    rw [h k hk]
    rfl
  | limit m hm h =>
    rw [hl] at hm
    cases hm
    refine ⟨limit, Nat.le_refl limit, fun k hk ↦ ?_, rfl, rfl⟩
    rw [h k hk]
    rfl

theorem unchanged_stop {fault : Fault} (ha : c.answer n = .error fault) :
    Unchanged fault (Prints (c.after n).machine) (c.after n).stop (c.after (n + 1)).stop := by
  have hu := unchanged_of_step ha
  rw [← after_succ] at hu
  exact ⟨hu.machine, rfl, hu.stepLimit, hu.profile, hu.output, hu.broken⟩

/-- A run is the iteration of steps. It ends with the first step that does not leave the computer
running, or before the step that the limit forbids; and if neither comes it does not end. -/
theorem run_iterates_step (c : Computer) :
    (∀ n, c.GoesOn n → (∀ limit ∈ c.stepLimit, n < limit) →
      (c.answer n = .ok false →
        c.run = some ⟨.ok (n + 1), (c.after (n + 1)).tell (.halted (n + 1))⟩) ∧
      ∀ fault, c.answer n = .error fault → ∃ d, c.run = some ⟨.error fault, d⟩ ∧
        Unchanged fault (Prints (c.after n).machine) (c.after n).stop d) ∧
    (∀ limit ∈ c.stepLimit, c.GoesOn limit →
      c.run = some ⟨.error (.stepLimitExceeded limit),
        (c.after limit).stop.tell (.stopping (c.after limit).machine.pc limit)⟩) ∧
    (∀ limit ∈ c.stepLimit, ∃ outcome, c.run = some outcome ∧
      ∃ n ≤ limit, (∀ k < n, (c.answer k).isOk) ∧
        outcome.computer.machine = (c.after n).machine ∧
        outcome.computer.profile = (c.after n).profile) ∧
    (∀ outcome, c.run = some outcome → outcome.computer.status = .halted) ∧
    (c.run = none ↔ c.stepLimit = none ∧ ∀ n, c.GoesOn n) := by
  refine ⟨fun n h hl ↦ ⟨run_of_halt h hl, fun fault ha ↦ ?_⟩, fun limit hl h ↦ run_of_limit hl h,
    fun limit hl ↦ ?_, fun outcome h ↦ status_of_ends (ends_of_run h), run_eq_none_iff⟩
  · exact ⟨_, run_of_error h hl ha, unchanged_stop ha⟩
  · obtain ⟨outcome, he⟩ := ends_of_stepLimit hl
    exact ⟨outcome, run_of_ends he, steps_of_ends hl he⟩

/-- About to carry out an instruction without operands, or with the first register. -/
def holding (i : Instruction) (stepLimit : Option Nat) : Computer :=
  { narrow with
    machine := { narrow.machine with memory := Memory.blank.set 0 i.opcode }
    stepLimit }

theorem run_iterates_step_holding :
    (∃ d, (holding .halt none).run = some ⟨.ok 1, d⟩ ∧ d.status = .halted) ∧
    (∃ d, narrow.run = some ⟨.error .output, d⟩ ∧
      Unchanged .output (Prints narrow.machine) narrow.stop d) ∧
    (∃ d, (holding .jump (some 2)).run = some ⟨.error (.stepLimitExceeded 2), d⟩) ∧
    ∃ outcome, (holding .print (some 1)).run = some outcome ∧
      ∃ n ≤ 1, outcome.computer.machine = ((holding .print (some 1)).after n).machine := by
  have hhalt : (holding .halt none).answer 0 = .ok false := rfl
  have hprint : narrow.answer 0 = .error .output := rfl
  have hgo : (holding .jump (some 2)).GoesOn 2 := by
    intro k hk
    obtain rfl | rfl : k = 0 ∨ k = 1 := by omega
    · rfl
    · rfl
  obtain ⟨hone, -, -, hstatus, -⟩ := run_iterates_step (holding .halt none)
  obtain ⟨houtput, -⟩ := run_iterates_step narrow
  obtain ⟨-, hlimit, -⟩ := run_iterates_step (holding .jump (some 2))
  obtain ⟨-, -, hends, -⟩ := run_iterates_step (holding .print (some 1))
  have hrun := (hone 0 nofun nofun).1 hhalt
  obtain ⟨outcome, hr, n, hn, -, hm, -⟩ := hends 1 rfl
  exact ⟨⟨_, hrun, hstatus _ hrun⟩, (houtput 0 nofun nofun).2 _ hprint, ⟨_, hlimit 2 rfl hgo⟩,
    outcome, hr, n, hn, hm⟩

/-- The output may hold more than it did before the step that fails. -/
theorem not_run_restores_output :
    ¬ ∀ (c : Computer) (n : Nat) (fault : Fault), c.GoesOn n →
      (∀ limit ∈ c.stepLimit, n < limit) → c.answer n = .error fault →
        ∃ d, c.run = some ⟨.error fault, d⟩ ∧ d.machine = (c.after n).machine ∧
          d.status = .halted ∧ d.profile = (c.after n).profile ∧
          d.output = (c.after n).output := by
  intro h
  obtain ⟨d, hr, -, -, -, ho⟩ := h narrow 0 .output nofun nofun rfl
  have hd := run_of_error (c := narrow) (n := 0) nofun nofun rfl
  rw [hr] at hd
  cases hd
  have ht : (narrow.after 1).stop.output = .lines "0" (some 0) := rfl
  rw [ht] at ho
  injection ho with htext
  exact absurd htext (by decide)

end ByteMachine.Computer
