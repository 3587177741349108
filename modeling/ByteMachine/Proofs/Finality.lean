import ByteMachine.Proofs.ProfileCounts
import ByteMachine.Proofs.Resumption

namespace ByteMachine

open InstructionTable

theorem InstructionTable.running_effect {s : State} {i : Instruction} (hi : i ≠ .halt) :
    ((row i).effect s).running = true := by
  cases i with
  | halt => exact absurd rfl hi
  | jump | jumpIfEqual | jumpIfNotEqual =>
    obtain h | h := effect_branch _ _ s
    · exact (congrArg State.running h).trans rfl
    · exact (congrArg State.running h).trans rfl
  | _ => rfl

namespace Computer

variable {c d : Computer} {fault : Fault}

def logging (c : Computer) (log : Log) : Computer :=
  { c with log }

theorem core_logging (c : Computer) (log : Log) : (c.logging log).core = c.core :=
  rfl

theorem stop_eq_self (h : c.status = .halted) : c.stop = c := by
  obtain ⟨machine, status, stepLimit, profile, output, log⟩ := c
  cases h
  rfl

/-- What a run leaves that its limit did not cut short: the computer is halted, and the limit admits
a step. -/
structure Rests (c : Computer) : Prop where
  status : c.status = .halted
  limit : ∀ limit ∈ c.stepLimit, 0 < limit

theorem rests_of_ends {outcome : Outcome Nat} (he : Ends c outcome)
    (h : ∀ limit, outcome.result ≠ .error (.stepLimitExceeded limit)) :
    outcome.computer.Rests := by
  refine ⟨status_of_ends he, ?_⟩
  have hpos : ∀ {n}, (∀ limit ∈ c.stepLimit, n < limit) →
      ∀ limit ∈ (c.after (n + 1)).stepLimit, 0 < limit := by
    intro n hl limit hm
    rw [stepLimit_after] at hm
    exact Nat.zero_lt_of_lt (hl limit hm)
  cases he with
  | halt n _ hl => exact hpos hl
  | error n _ _ hl => exact hpos hl
  | limit limit => exact absurd rfl (h limit)

def AtHalt (c : Computer) : Prop :=
  c.machine.fetch = .ok (.halt, c.machine.fetched .halt)

theorem atHalt_of_step (h : c.step.result = .ok false) : c.AtHalt := by
  obtain ⟨i, hi, hn, -, hv⟩ := view_step h
  have hr : decide (c.step.computer.status = .running) = ((row i).effect c.view).running :=
    congrArg State.running hv
  obtain rfl : i = .halt := by
    by_contra hne
    rw [running_effect hne, decide_eq_true_iff, status_of_step h] at hr
    cases hr
  exact Machine.fetch_eq_ok_iff.mpr ⟨hn, (Instruction.opcode_eq_of_ofOpcode? hi).symm, rfl⟩

theorem step_of_atHalt (h : c.AtHalt) :
    c.step = ⟨.ok false, (c.stop.count Instruction.halt.opcode).tell (.executing c.machine)⟩ := by
  rw [step_of_fetch h]
  rfl

theorem atHalt_of_ends {outcome : Outcome Nat} {n : Nat} (he : Ends c outcome)
    (h : outcome.result = .ok n) : outcome.computer.AtHalt := by
  cases he with
  | halt n _ _ ha =>
    -- Halting leaves the program counter where it is, at the instruction itself.
    have hm : (c.after (n + 1)).machine = (c.after n).machine := by
      rw [after_succ, step_of_atHalt (atHalt_of_step ha)]
      rfl
    have hd : (c.after (n + 1)).AtHalt := by
      rw [AtHalt, hm]
      exact atHalt_of_step ha
    exact hd
  | error | limit => cases h

theorem run_of_atHalt (h : c.AtHalt) (hr : c.Rests) :
    ∃ log, c.run = some ⟨.ok 1, (c.count Instruction.halt.opcode).logging log⟩ := by
  have hs := step_of_atHalt h
  rw [stop_eq_self hr.status] at hs
  have ha : c.answer 0 = .ok false := by
    rw [answer, after, Function.iterate_zero_apply, hs]
  have hd : c.after 1 = (c.count Instruction.halt.opcode).tell (.executing c.machine) := by
    rw [after, Function.iterate_one, hs]
  rw [run_of_halt (goesOn_zero c) hr.limit ha, hd]
  exact ⟨_, rfl⟩

/-- The run lemma for a halted computer, by induction on the number of runs. -/
theorem session_of_atHalt (h : c.AtHalt) (hr : c.Rests) (k : Nat) :
    ∃ log, c.session (List.replicate k .run) =
      some (List.replicate k (.ok (.ended 1)),
        { c with profile := c.profile.map (·.records (List.replicate k .halt)), log }) := by
  induction k generalizing c with
  | zero =>
    refine ⟨c.log, ?_⟩
    have hp : c.profile.map (·.records (List.replicate 0 .halt)) = c.profile := Option.map_id'
    rw [hp]
    rfl
  | succ k ih =>
    obtain ⟨log, hrun⟩ := run_of_atHalt h hr
    have hcall : c.call .run =
        some ⟨.ok (.ended 1), (c.count Instruction.halt.opcode).logging log⟩ := by
      rw [call, hrun]
      rfl
    have h' : ((c.count Instruction.halt.opcode).logging log).AtHalt := h
    obtain ⟨last, hs⟩ := ih h' ⟨hr.status, hr.limit⟩
    have hp : (c.count Instruction.halt.opcode).profile.map (·.records (List.replicate k .halt)) =
        c.profile.map (·.records (List.replicate (k + 1) .halt)) := Option.map_map _ _ _
    refine ⟨last, ?_⟩
    rw [← hp]
    exact session_of_call hcall hs

theorem rel_records_replicate (p? : Option Profile) (i : Instruction) (k : Nat) :
    Option.Rel (fun p q ↦ p.Adds (List.replicate k i) q ∧
      ∀ opcode ≠ i.opcode, q.countOf opcode = p.countOf opcode)
      p? (p?.map (·.records (List.replicate k i))) := by
  cases p? with
  | none => exact .none
  | some p =>
    refine .some ⟨p.adds_records _, ?_⟩
    intro opcode h
    exact p.countOf_records_replicate i k h

theorem eq_logging_of_unchanged {printing : UInt8 → Prop} (h : Unchanged fault printing c d)
    (hf : fault ≠ .output) : d = c.logging d.log := by
  obtain ⟨hm, hs, hl, hp, ho, -⟩ := h
  obtain ⟨machine, status, stepLimit, profile, output, log⟩ := d
  cases hm
  cases hs
  cases hl
  cases hp
  cases ho hf
  rfl

/-- The step lemma for a computer that cannot go on: whether it steps or runs, it fails as before
and stays as it is. -/
theorem call_of_error {call : Call} (hcall : call = .step ∨ call = .run) (hr : c.Rests)
    (ha : c.step.result = .error fault) (hf : fault ≠ .output) :
    ∃ log, c.call call = some ⟨.error fault, c.logging log⟩ := by
  have hd : c.step.computer = c.logging c.step.computer.log :=
    eq_logging_of_unchanged (unchanged_of_step ha) hf
  obtain rfl | rfl := hcall
  · refine ⟨c.step.computer.log, ?_⟩
    rw [call, Outcome.map, ha, ← hd]
    rfl
  · refine ⟨c.step.computer.log, ?_⟩
    have hrun : c.run = some ⟨.error fault, (c.after 1).stop⟩ :=
      run_of_error (goesOn_zero c) hr.limit ha
    have hstop : (c.after 1).stop = c.logging c.step.computer.log := by
      rw [after, Function.iterate_one, hd]
      exact congrArg (logging · _) (stop_eq_self hr.status)
    rw [call, hrun, hstop]
    rfl

theorem session_of_error {calls : List Call} (hcalls : ∀ call ∈ calls, call = .step ∨ call = .run)
    (hr : c.Rests) (ha : c.step.result = .error fault) (hf : fault ≠ .output) :
    ∃ log, c.session calls = some (List.replicate calls.length (.error fault), c.logging log) := by
  induction calls generalizing c with
  | nil => exact ⟨c.log, rfl⟩
  | cons call calls ih =>
    obtain ⟨hcall, hcalls⟩ := List.forall_mem_cons.mp hcalls
    obtain ⟨log, ho⟩ := call_of_error hcall hr ha hf
    have ha' : (c.logging log).step.result = .error fault :=
      (alike_of_core (core_logging c log)).step.1.trans ha
    have hr' : (c.logging log).Rests := ⟨hr.status, hr.limit⟩
    obtain ⟨last, hs⟩ := ih hcalls hr' ha'
    exact ⟨last, session_of_call ho hs⟩

theorem step_of_ends {outcome : Outcome Nat} (he : Ends c outcome)
    (h : outcome.result = .error fault) (hf : fault ≠ .output)
    (hl : ∀ limit, fault ≠ .stepLimitExceeded limit) :
    outcome.computer.step.result = .error fault := by
  cases he with
  | halt n => cases h
  | error n other _ _ ha =>
    cases h
    have hu := unchanged_stop ha
    have halike : Alike (c.after (n + 1)).stop (c.after n) :=
      ⟨hu.machine, congrArg Output.room? (hu.output hf)⟩
    exact halike.step.1.trans ha
  | limit limit =>
    cases h
    exact absurd rfl (hl limit)

theorem step_of_departed (h : c.machine.pc = 256) :
    c.step = ⟨.error (.outOfRangeAddress 256), c⟩ := by
  have hf := Machine.fetch_of_le (m := c.machine) (by omega)
  rw [h] at hf
  exact step_of_fetch_error hf

theorem run_of_departed (h : c.machine.pc = 256) :
    ∃ log, c.run = some
      ⟨.error (if c.stepLimit = some 0 then .stepLimitExceeded 0 else .outOfRangeAddress 256),
        c.stop.logging log⟩ := by
  have hs := step_of_departed h
  by_cases hl : c.stepLimit = some 0
  · rw [if_pos hl, run_of_limit hl (goesOn_zero c)]
    exact ⟨_, rfl⟩
  · have hpos : ∀ limit ∈ c.stepLimit, 0 < limit := by
      intro limit hm
      apply Nat.pos_of_ne_zero
      rintro rfl
      exact hl hm
    have ha : c.answer 0 = .error (.outOfRangeAddress 256) := congrArg Outcome.result hs
    have hd : c.after 1 = c := congrArg Outcome.computer hs
    rw [if_neg hl, run_of_error (goesOn_zero c) hpos ha, hd]
    exact ⟨c.log, rfl⟩

/-- The program counter has left memory, and nothing has been carried out since. -/
structure Departed (c d : Computer) : Prop where
  pc : d.machine.pc = 256
  profile : d.profile = c.profile
  output : d.output = c.output

theorem departed_loadFrom (h : Departed c d) (source : Source) :
    Departed c (d.loadFrom source).computer := by
  obtain ⟨memory, log, hd⟩ := d.computer_loadFrom source
  rw [hd]
  exact ⟨h.pc, h.profile, h.output⟩

theorem departed_combine (h : Departed c d) (op : Arithmetic) (first second : UInt8) :
    Departed c ((Operation.combine op first second).outcome d).computer := by
  rw [Operation.outcome_combine]
  cases d.machine.registers.combine op first second with
  | error fault => exact h
  | ok registers => exact ⟨h.pc, h.profile, h.output⟩

theorem departed_call (h : Departed c d) (call : Call) :
    ∃ outcome, d.call call = some outcome ∧ Departed c outcome.computer := by
  cases call with
  | load source => exact ⟨_, rfl, departed_loadFrom h source⟩
  | step =>
    refine ⟨_, rfl, ?_⟩
    rw [step_of_departed h.pc]
    exact h
  | run =>
    obtain ⟨log, hr⟩ := run_of_departed h.pc
    rw [Computer.call, hr]
    exact ⟨_, rfl, h.pc, h.profile, h.output⟩
  | combine op first second => exact ⟨_, rfl, departed_combine h op first second⟩

theorem departed_session (h : Departed c d) (calls : List Call) :
    ∃ replies e, d.session calls = some (replies, e) ∧ Departed c e := by
  induction calls generalizing d with
  | nil => exact ⟨[], d, rfl, h⟩
  | cons call calls ih =>
    obtain ⟨outcome, ho, hd⟩ := departed_call h call
    obtain ⟨replies, e, hs, he⟩ := ih hd
    exact ⟨_, e, session_of_call ho hs, he⟩

/-- The end of a run is final. A computer that has halted halts again whenever it is run, in one
step, and its profile counts that step and nothing else; one that has failed fails again in the same
way whenever it is run or stepped. One whose program counter has left memory carries nothing out any
more, whatever is called or loaded. -/
theorem run_final (c : Computer) :
    (∀ outcome, c.run = some outcome →
      (∀ n, outcome.result = .ok n → ∀ k, ∃ profile log,
        outcome.computer.session (List.replicate k .run) =
            some (List.replicate k (.ok (.ended 1)), { outcome.computer with profile, log }) ∧
          Option.Rel (fun p q ↦ p.Adds (List.replicate k .halt) q ∧
            ∀ opcode ≠ Instruction.halt.opcode, q.countOf opcode = p.countOf opcode)
            outcome.computer.profile profile) ∧
      ∀ fault, outcome.result = .error fault → fault ≠ .output →
        (∀ limit, fault ≠ .stepLimitExceeded limit) →
          ∀ calls : List Call, (∀ call ∈ calls, call = .step ∨ call = .run) → ∃ log,
            outcome.computer.session calls =
              some (List.replicate calls.length (.error fault),
                { outcome.computer with log })) ∧
    (c.machine.pc = 256 → ∀ calls, ∃ replies d, c.session calls = some (replies, d) ∧
      d.machine.pc = 256 ∧ d.profile = c.profile ∧ d.output = c.output ∧
      d.step = ⟨.error (.outOfRangeAddress 256), d⟩ ∧
      ∃ log, d.run = some
        ⟨.error (if d.stepLimit = some 0 then .stepLimitExceeded 0 else .outOfRangeAddress 256),
          { d with status := .halted, log }⟩) := by
  refine ⟨fun outcome hrun ↦ ?_, fun hpc calls ↦ ?_⟩
  · have he := ends_of_run hrun
    constructor
    · intro n h k
      have hr := rests_of_ends he (by rw [h]; nofun)
      obtain ⟨log, hs⟩ := session_of_atHalt (atHalt_of_ends he h) hr k
      exact ⟨_, log, hs, rel_records_replicate _ _ k⟩
    · intro fault h hf hl calls hcalls
      have hr := rests_of_ends he (by simpa [h] using hl)
      exact session_of_error hcalls hr (step_of_ends he h hf hl) hf
  · obtain ⟨replies, d, hs, hd⟩ := departed_session ⟨hpc, rfl, rfl⟩ calls
    exact ⟨replies, d, hs, hd.pc, hd.profile, hd.output,
      step_of_departed hd.pc, run_of_departed hd.pc⟩

/-- A program that halts, memory without a program, and a program counter behind the end of it. -/
theorem run_final_printing :
    (∃ d log q, (printing.limited 6).run = some ⟨.ok 3, d⟩ ∧
      d.session [.run, .run] =
        some ([.ok (.ended 1), .ok (.ended 1)], { d with profile := some q, log }) ∧
      q.count .halt = 3 ∧ q.count .print = 1 ∧ q.total = 5) ∧
    (∃ d log, (narrow.withMemory Memory.blank).run = some ⟨.error (.unknownOpcode 0 0), d⟩ ∧
      d.session [.step, .run] =
        some ([.error (.unknownOpcode 0 0), .error (.unknownOpcode 0 0)], { d with log })) ∧
    ∃ replies d,
      Computer.session { narrow with machine := { narrow.machine with pc := 256 } }
        [.load (.bytes [0x01]), .run] = some (replies, d) ∧
      d.step = ⟨.error (.outOfRangeAddress 256), d⟩ := by
  have hok : (printing.limited 6).run.map (fun o ↦ (o.result, o.computer.profile.map fun p ↦
      (p.count .halt, p.count .print, p.total))) = some (.ok 3, some (1, 1, 3)) := by decide +kernel
  obtain ⟨⟨result, d⟩, hrun, hd⟩ := Option.map_eq_some_iff.mp hok
  obtain ⟨rfl, hprofile⟩ := Prod.mk.inj hd
  obtain ⟨p, hp, hcounts⟩ := Option.map_eq_some_iff.mp hprofile
  obtain ⟨hhalt, hcounts⟩ := Prod.mk.inj hcounts
  obtain ⟨hprint, htotal⟩ := Prod.mk.inj hcounts
  obtain ⟨profile, log, hagain, hrel⟩ := ((run_final _).1 _ hrun).1 3 rfl 2
  rw [hp] at hrel
  cases hrel with
  | @some _ q h =>
    obtain ⟨hadds, -⟩ := h
    have hfirst := (hadds.count .halt).trans (congrArg (· + 2) hhalt)
    have hsecond := (hadds.count .print).trans (congrArg (· + 0) hprint)
    have hunknown : (narrow.withMemory Memory.blank).run =
        some ⟨.error (.unknownOpcode 0 0), ((narrow.withMemory Memory.blank).after 1).stop⟩ :=
      run_of_error (goesOn_zero _) nofun rfl
    obtain ⟨last, hfails⟩ :=
      ((run_final _).1 _ hunknown).2 _ rfl nofun nofun [.step, .run] (by simp)
    obtain ⟨replies, e, hs, -, -, -, hstep, -⟩ :=
      (run_final { narrow with machine := { narrow.machine with pc := 256 } }).2 rfl
        [.load (.bytes [0x01]), .run]
    exact ⟨⟨d, log, q, hrun, hagain, hfirst, hsecond, hadds.total.trans (congrArg (· + 2) htotal)⟩,
      ⟨_, last, hunknown, hfails⟩, replies, e, hs, hstep⟩

end Computer

end ByteMachine
