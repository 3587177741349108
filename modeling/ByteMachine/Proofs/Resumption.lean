import ByteMachine.Proofs.Safety

namespace ByteMachine

/-- What steps work on and leave behind, apart from the status and the log. -/
structure Core where
  machine : Machine
  profile : Option Profile
  output : Output

namespace Computer

variable {c d : Computer} {n : Nat}

def core (c : Computer) : Core :=
  ⟨c.machine, c.profile, c.output⟩

theorem core_eq_iff :
    c.core = d.core ↔ c.machine = d.machine ∧ c.profile = d.profile ∧ c.output = d.output := by
  simp only [core, Core.mk.injEq]

theorem alike_of_core (h : c.core = d.core) : Alike c d := by
  obtain ⟨hm, -, ho⟩ := core_eq_iff.mp h
  exact ⟨hm, congrArg Output.room? ho⟩

theorem core_step (h : c.core = d.core) : c.step.computer.core = d.step.computer.core := by
  obtain ⟨hm, hp, ho⟩ := core_eq_iff.mp h
  obtain ⟨hresult, hmachine⟩ := step_congr hm fun _ _ ↦ by rw [ho]
  refine core_eq_iff.mpr ⟨hmachine, ?_, ?_⟩
  · rw [profile_step, profile_step, executed?_congr hm hresult, hp]
  · rw [offer_step, offer_step, hm, ho]

theorem core_after (h : c.core = d.core) (n : Nat) : (c.after n).core = (d.after n).core := by
  induction n with
  | zero => exact h
  | succ n ih =>
    rw [after_succ, after_succ]
    exact core_step ih

theorem answer_of_core (h : c.core = d.core) (n : Nat) : c.answer n = d.answer n :=
  (alike_of_core (core_after h n)).step.1

theorem goesOn_of_core (h : c.core = d.core) : c.GoesOn n ↔ d.GoesOn n := by
  simp only [GoesOn, answer_of_core h]

theorem answer_ne_stepLimitExceeded (c : Computer) (n limit : Nat) :
    c.answer n ≠ .error (.stepLimitExceeded limit) := by
  intro h
  by_cases hpc : (c.after n).machine.pc ≤ 256
  · exact describes_step hpc h
  · have hf := Machine.fetch_of_le (m := (c.after n).machine) (by omega)
    rw [answer, step_of_fetch_error hf] at h
    cases h

def limited (c : Computer) (limit : Nat) : Computer :=
  { c with stepLimit := some limit }

@[simp]
theorem core_limited (c : Computer) (limit : Nat) : (c.limited limit).core = c.core :=
  rfl

theorem limited_eq_self {limit : Nat} (h : c.stepLimit = some limit) : c.limited limit = c := by
  obtain ⟨machine, status, stepLimit, profile, output, log⟩ := c
  cases h
  rfl

/-- The result of a run, if `taken` steps more had come before it under the same limit. -/
def prolong (taken : Nat) : Except Fault Nat → Except Fault Nat
  | .ok n => .ok (taken + n)
  | .error (.stepLimitExceeded limit) => .error (.stepLimitExceeded (taken + limit))
  | .error fault => .error fault

theorem prolong_zero (result : Except Fault Nat) : prolong 0 result = result := by
  rcases result with fault | n
  · cases fault <;> simp [prolong]
  · simp [prolong]

theorem prolong_prolong (m n : Nat) (result : Except Fault Nat) :
    prolong m (prolong n result) = prolong (m + n) result := by
  rcases result with fault | steps
  · cases fault <;> simp [prolong, Nat.add_assoc]
  · simp [prolong, Nat.add_assoc]

theorem prolong_of_ne {fault : Fault} (h : ∀ limit, fault ≠ .stepLimitExceeded limit)
    (taken : Nat) : prolong taken (.error fault) = .error fault := by
  cases fault with
  | stepLimitExceeded limit => exact absurd rfl (h limit)
  | _ => rfl

theorem goesOn_add {m : Nat} (hm : c.GoesOn m) (hn : (c.after m).GoesOn n) : c.GoesOn (m + n) := by
  intro k hk
  by_cases hlt : k < m
  · exact hm k hlt
  · obtain ⟨j, rfl⟩ := Nat.exists_eq_add_of_le (Nat.not_lt.mp hlt)
    rw [answer, after_add]
    exact hn j (by omega)

/-- A run that is taken up where some steps have led ends as the run that also took these steps,
under any limit that leaves room for both. -/
theorem ends_limited {m limit total : Nat} {outcome : Outcome Nat} (hgo : c.GoesOn m)
    (hd : d.core = (c.after m).core) (he : Ends (d.limited limit) outcome)
    (hle : m + limit ≤ total)
    (hlimit : ∀ l, outcome.result = .error (.stepLimitExceeded l) → total = m + limit) :
    ∃ whole, Ends (c.limited total) whole ∧ whole.result = prolong m outcome.result ∧
      whole.computer.core = outcome.computer.core := by
  have hgo' : (c.limited total).GoesOn m := (goesOn_of_core (core_limited c total)).mpr hgo
  have hcore : (d.limited limit).core = ((c.limited total).after m).core := by
    rw [core_limited, hd]
    exact core_after (core_limited c total).symm m
  have hafter : ∀ j, ((c.limited total).after (m + j)).core = ((d.limited limit).after j).core := by
    intro j
    rw [after_add]
    exact (core_after hcore j).symm
  have hanswer : ∀ j, (c.limited total).answer (m + j) = (d.limited limit).answer j := by
    intro j
    rw [answer_of_core hcore, answer, answer, after_add]
  have hmore : ∀ {j}, (d.limited limit).GoesOn j → (c.limited total).GoesOn (m + j) := by
    intro j hj
    exact goesOn_add hgo' ((goesOn_of_core hcore).mp hj)
  cases he with
  | halt n h hl ha =>
    have hn : n < limit := hl limit rfl
    refine ⟨_, .halt (m + n) (hmore h) ?_ ((hanswer n).trans ha), rfl, hafter (n + 1)⟩
    intro l hm
    cases hm
    omega
  | error n fault h hl ha =>
    have hn : n < limit := hl limit rfl
    refine ⟨_, .error (m + n) fault (hmore h) ?_ ((hanswer n).trans ha), ?_, hafter (n + 1)⟩
    · intro l hm
      cases hm
      omega
    · -- A step's own fault is left alone by `prolong`, as no step fails by a limit.
      refine (prolong_of_ne (fun l hf ↦ ?_) m).symm
      rw [hf] at ha
      exact answer_ne_stepLimitExceeded _ n l ha
  | limit l hl h =>
    cases hl
    obtain rfl := hlimit limit rfl
    exact ⟨_, .limit (m + limit) rfl (hmore h), rfl, hafter limit⟩

theorem stopped_of_ends {limit l : Nat} {outcome : Outcome Nat}
    (he : Ends (c.limited limit) outcome)
    (h : outcome.result = .error (.stepLimitExceeded l)) :
    l = limit ∧ c.GoesOn limit ∧ outcome.computer.core = (c.after limit).core ∧
      outcome.computer.limited limit = outcome.computer := by
  cases he with
  | halt n => cases h
  | error n fault _ _ ha =>
    cases h
    exact absurd ha (answer_ne_stepLimitExceeded _ n l)
  | limit m hm hgo =>
    cases hm
    cases h
    exact ⟨rfl, (goesOn_of_core (core_limited c limit)).mp hgo,
      core_after (core_limited c limit) limit, limited_eq_self (stepLimit_after limit)⟩

/-- Runs a computer up to a number of times, until a run ends otherwise than by the step limit.
Answers the results of the runs, the last one last, and the computer they leave. -/
def resume : Nat → Computer → Option (List (Except Fault Nat) × Computer)
  | 0, c => some ([], c)
  | k + 1, c => do
    let outcome ← c.run
    match outcome.result with
    | .error (.stepLimitExceeded _) =>
      let (results, d) ← resume k outcome.computer
      return (outcome.result :: results, d)
    | result => return ([result], outcome.computer)

theorem resume_of_stopped {k l : Nat} {outcome : Outcome Nat}
    {results : List (Except Fault Nat)} (he : Ends c outcome)
    (h : outcome.result = .error (.stepLimitExceeded l))
    (hr : resume k outcome.computer = some (results, d)) :
    resume (k + 1) c = some (outcome.result :: results, d) := by
  rw [resume, run_of_ends he]
  simp only [Option.bind_eq_bind, Option.bind_some, h, hr, Option.pure_def]

theorem resume_of_ended {outcome : Outcome Nat} (he : Ends c outcome)
    (h : ∀ l, outcome.result ≠ .error (.stepLimitExceeded l)) (k : Nat) :
    resume (k + 1) c = some ([outcome.result], outcome.computer) := by
  rw [resume, run_of_ends he, Option.bind_eq_bind, Option.bind_some]
  split
  · next l hl => exact absurd hl (h l)
  · rfl

theorem ends_of_limited (c : Computer) (limit : Nat) : ∃ outcome, Ends (c.limited limit) outcome :=
  ends_of_stepLimit rfl

/-- The run lemma: by induction on the number of short runs, each of which, if the limit ends it,
leaves the next one a computer with the core that the long run has there. -/
theorem ends_resume (c : Computer) (limit k : Nat) :
    ∃ j last d whole,
      resume (k + 1) (c.limited limit) =
        some (List.replicate j (.error (.stepLimitExceeded limit)) ++ [last], d) ∧
      Ends (c.limited ((k + 1) * limit)) whole ∧ whole.result = prolong (j * limit) last ∧
      whole.computer.core = d.core ∧ d.status = .halted ∧ j ≤ k ∧
      ∀ l, last = .error (.stepLimitExceeded l) → j = k ∧ l = limit := by
  induction k generalizing c with
  | zero =>
    obtain ⟨outcome, he⟩ := ends_of_limited c limit
    refine ⟨0, outcome.result, outcome.computer, outcome, ?_, ?_, ?_, rfl, status_of_ends he,
      Nat.le_refl 0, fun l hl ↦ ⟨rfl, (stopped_of_ends he hl).1⟩⟩
    · by_cases h : ∃ l, outcome.result = .error (.stepLimitExceeded l)
      · obtain ⟨l, h⟩ := h
        exact resume_of_stopped he h rfl
      · exact resume_of_ended he (not_exists.mp h) 0
    · rwa [Nat.zero_add, Nat.one_mul]
    · rw [Nat.zero_mul, prolong_zero]
  | succ k ih =>
    obtain ⟨outcome, he⟩ := ends_of_limited c limit
    by_cases h : ∃ l, outcome.result = .error (.stepLimitExceeded l)
    · obtain ⟨l, h⟩ := h
      obtain ⟨rfl, hgo, hcore, hself⟩ := stopped_of_ends he h
      obtain ⟨j, last, d, rest, hr, hrest, hresult, hd, hs, hj, hlast⟩ := ih outcome.computer
      rw [hself] at hr
      have htotal : l + (k + 1) * l = (k + 1 + 1) * l := by rw [Nat.add_mul (k + 1)]; omega
      -- The short runs that are left make up one run from where the first was cut.
      obtain ⟨whole, hw, hwr, hwc⟩ := ends_limited hgo hcore hrest (Nat.le_refl _) fun _ _ ↦ rfl
      rw [htotal] at hw
      refine ⟨j + 1, last, d, whole, ?_, hw, ?_, hwc.trans hd, hs, Nat.succ_le_succ hj, ?_⟩
      · rw [resume_of_stopped he h hr, h, List.replicate_succ, List.cons_append]
      · rw [hwr, hresult, prolong_prolong, Nat.add_mul, Nat.one_mul, Nat.add_comm]
      · intro m hm
        obtain ⟨rfl, rfl⟩ := hlast m hm
        exact ⟨rfl, rfl⟩
    · have hne := not_exists.mp h
      have hle : 0 + limit ≤ (k + 1 + 1) * limit := by
        rw [Nat.zero_add]
        exact Nat.le_mul_of_pos_left limit (by omega)
      obtain ⟨whole, hw, hwr, hwc⟩ := ends_limited (goesOn_zero c) rfl he hle fun l hl ↦
        absurd hl (hne l)
      refine ⟨0, outcome.result, outcome.computer, whole, resume_of_ended he hne _, hw, ?_, hwc,
        status_of_ends he, Nat.zero_le _, fun l hl ↦ absurd hl (hne l)⟩
      rw [hwr, Nat.zero_mul]

/-- Runs are resumable. Up to `k` runs under a limit, each taken up where the one before was cut
short, leave the same as one run under `k` times the limit, and the result of the last of them says
what the result of the one run is. -/
theorem resume_eq_run (c : Computer) (limit : Nat) {k : Nat} (hk : 0 < k) :
    ∃ j last d result e,
      resume k (c.limited limit) =
        some (List.replicate j (.error (.stepLimitExceeded limit)) ++ [last], d) ∧
      (c.limited (k * limit)).run = some ⟨result, e⟩ ∧ j < k ∧
      (d.machine = e.machine ∧ d.status = e.status ∧ d.profile = e.profile ∧
        d.output = e.output) ∧
      (∀ n, last = .ok n → result = .ok (j * limit + n)) ∧
      (∀ fault, last = .error fault → (∀ l, fault ≠ .stepLimitExceeded l) →
        result = .error fault) ∧
      ∀ l, last = .error (.stepLimitExceeded l) →
        j + 1 = k ∧ l = limit ∧ result = .error (.stepLimitExceeded (k * limit)) := by
  obtain ⟨k, rfl⟩ := Nat.exists_eq_add_one_of_ne_zero (Nat.ne_of_gt hk)
  obtain ⟨j, last, d, ⟨result, e⟩, hr, he, hresult, hcore, hs, hj, hlast⟩ := ends_resume c limit k
  obtain ⟨hm, hp, ho⟩ := core_eq_iff.mp hcore
  have hse : e.status = .halted := status_of_ends he
  refine ⟨j, last, d, result, e, hr, run_of_ends he, Nat.lt_succ_of_le hj,
    ⟨hm.symm, hs.trans hse.symm, hp.symm, ho.symm⟩, ?_, ?_, ?_⟩
  · rintro n rfl
    exact hresult
  · rintro fault rfl hne
    exact hresult.trans (prolong_of_ne hne _)
  · rintro l rfl
    obtain ⟨rfl, rfl⟩ := hlast l rfl
    refine ⟨rfl, rfl, hresult.trans ?_⟩
    rw [prolong, Nat.add_mul, Nat.one_mul]

/-- About to load a register, print it and halt. -/
def printing : Computer :=
  { new { profiling := true } (.lines "" none) ⟨.warn, #[]⟩ with
    machine := { Machine.initial Registers.defaultTop with
      memory := (((Memory.blank.set 0 0x82).set 2 7).set 3 0x47).set 5 0x01 } }

theorem resume_printing :
    ∃ d e, resume 3 (printing.limited 2) = some ([.error (.stepLimitExceeded 2), .ok 1], d) ∧
      (printing.limited 6).run = some ⟨.ok 3, e⟩ ∧ d.machine = e.machine ∧ d.output = e.output := by
  have hresults : (resume 3 (printing.limited 2)).map (·.1) =
      some [.error (.stepLimitExceeded 2), .ok 1] := by decide +kernel
  obtain ⟨j, last, d, result, e, hr, he, -, ⟨hm, -, -, ho⟩, hok, -⟩ :=
    resume_eq_run printing 2 (k := 3) (by decide)
  rw [hr, Option.map_some, Option.some_inj] at hresults
  obtain rfl : j = 1 := by simpa using congrArg List.length hresults
  obtain rfl : last = .ok 1 := by simpa using hresults
  cases hok 1 rfl
  exact ⟨d, e, hr, he, hm, ho⟩

end Computer

end ByteMachine
