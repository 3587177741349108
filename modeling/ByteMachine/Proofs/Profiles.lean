import ByteMachine.Proofs.Attempts
import ByteMachine.Proofs.Finality

namespace ByteMachine

namespace Computer

variable {c d : Computer}

/-- The instructions that some steps carry out, in order. -/
def executed (es : List Computer) : List Instruction :=
  es.filterMap executed?

theorem executed?_of_halt (h : c.step.result = .ok false) : c.executed? = some .halt :=
  executed?_of_ok (atHalt_of_step h) h

theorem executed?_of_running (h : c.step.result = .ok true) :
    ∃ i, i ≠ .halt ∧ c.executed? = some i := by
  obtain ⟨i, f, hf, he⟩ := executed?_of_result h
  refine ⟨i, ?_, he⟩
  rintro rfl
  obtain ⟨-, -, rfl⟩ := Machine.fetch_eq_ok_iff.mp hf
  rw [step_of_atHalt hf] at h
  cases h

theorem executed_append (es fs : List Computer) :
    executed (es ++ fs) = executed es ++ executed fs :=
  List.filterMap_append

theorem executed_cons (e : Computer) (es : List Computer) :
    executed (e :: es) = e.executed?.toList ++ executed es := by
  rw [executed, executed, List.filterMap_cons]
  cases e.executed? <;> rfl

theorem Trail.profile {v w : Evidence} {es : List Computer} (h : Trail v es w) :
    w.profile = v.profile.map (·.records (executed es)) := by
  induction h with
  | nil => exact Option.map_id'.symm
  | @cons es w e _ ih =>
    have he : e.step.computer.evidence.profile = _ := e.profile_step
    rw [ih, he, Option.map_map, executed_cons]
    refine congrArg (Option.map · e.profile) (funext fun p ↦ ?_)
    cases e.executed? <;> rfl

theorem executed_of_goesOn {n : Nat} (h : c.GoesOn n) :
    (executed ((List.range n).map c.after)).length = n ∧
      .halt ∉ executed ((List.range n).map c.after) := by
  induction n with
  | zero => exact ⟨rfl, nofun⟩
  | succ n ih =>
    obtain ⟨hlen, hmem⟩ := ih (h.mono (Nat.le_succ n))
    obtain ⟨i, hi, he⟩ := executed?_of_running (h n (Nat.lt_succ_self n))
    have hone : executed [c.after n] = [i] := by rw [executed_cons, he]; rfl
    rw [List.range_succ, List.map_append, executed_append, List.map_singleton, hone]
    refine ⟨by rw [List.length_append, hlen]; rfl, fun hm ↦ ?_⟩
    obtain hm | hm := List.mem_append.mp hm
    · exact hmem hm
    · exact hi (List.mem_singleton.mp hm).symm

theorem executed_of_stop {n : Nat} (h : c.GoesOn n) (hl : ∀ limit ∈ c.stepLimit, n < limit)
    (ha : c.answer n ≠ .ok true) :
    executed (c.tried .run) =
      executed ((List.range n).map c.after) ++ (c.after n).executed?.toList := by
  rw [tried_of_stop h hl ha, List.range_succ, List.map_append, executed_append, List.map_singleton,
    executed_cons]
  exact congrArg _ (List.append_nil _)

theorem executed_of_halted {n : Nat} (h : c.run = some ⟨.ok n, d⟩) :
    (executed (c.tried .run)).length = n ∧
      ∃ is, executed (c.tried .run) = is ++ [.halt] ∧ .halt ∉ is := by
  cases ends_of_run h with
  | halt n hgo hl ha =>
    obtain ⟨hlen, hmem⟩ := executed_of_goesOn hgo
    rw [executed_of_stop hgo hl (by rw [ha]; nofun), executed?_of_halt ha]
    exact ⟨by rw [List.length_append, hlen]; rfl, _, rfl, hmem⟩

theorem executed_of_limited {limit : Nat}
    (h : c.run = some ⟨.error (.stepLimitExceeded limit), d⟩) :
    (executed (c.tried .run)).length = limit ∧ .halt ∉ executed (c.tried .run) := by
  cases ends_of_run h with
  | error n _ _ _ ha => exact absurd ha (c.answer_ne_stepLimitExceeded n limit)
  | limit _ hl hgo =>
    rw [tried_of_limit hl hgo]
    exact executed_of_goesOn hgo

theorem executed_of_failed {fault : Fault} (h : c.run = some ⟨.error fault, d⟩)
    (hf : ∀ limit, fault ≠ .stepLimitExceeded limit) :
    ∃ k, c.GoesOn k ∧ c.answer k = .error fault ∧ (executed (c.tried .run)).length = k ∧
      .halt ∉ executed (c.tried .run) := by
  cases ends_of_run h with
  | error n _ hgo hl ha =>
    obtain ⟨hlen, hmem⟩ := executed_of_goesOn hgo
    rw [executed_of_stop hgo hl (by rw [ha]; nofun), executed?_of_error ha, Option.toList_none,
      List.append_nil]
    exact ⟨n, hgo, ha, hlen, hmem⟩
  | limit limit => exact absurd rfl (hf limit)

theorem adds_of_trail {p : Profile} {v w : Evidence} {es : List Computer} (hp : v.profile = some p)
    (h : Trail v es w) : ∃ q, w.profile = some q ∧ p.Adds (executed es) q := by
  refine ⟨p.records (executed es), ?_, p.adds_records _⟩
  rw [h.profile, hp]
  rfl

/-- The books of a profile. After any calls on a new computer the profile counts the instructions
that were carried out, by single steps and within runs, each as often as it was, and its rows sum up
to the total. A run that halts adds as many as it answers, the last of them and no other the one
that halts; a run that its limit cuts short adds as many as the limit; one that fails adds those in
front of the step that failed. A step adds the instruction it carries out and nothing if it fails,
and no other call adds anything. -/
theorem profile_accounts {settings : Settings} (hp : settings.profiling = true) (output : Output)
    (log : Log) {calls : List Call} {replies : List (Except Fault Reply)}
    (hs : (new settings output log).session calls = some (replies, c)) :
    ∃ p, c.profile = some p ∧
      p.total = (executed ((new settings output log).trials calls)).length ∧
      (∀ i, p.count i = (executed ((new settings output log).trials calls)).count i) ∧
      (p.rows.map Prod.snd).sum = p.total ∧
      (∀ outcome, c.run = some outcome →
        ∃ q, outcome.computer.profile = some q ∧ p.Adds (executed (c.tried .run)) q ∧
          (∀ n, outcome.result = .ok n → (executed (c.tried .run)).length = n ∧
            ∃ is, executed (c.tried .run) = is ++ [.halt] ∧ .halt ∉ is) ∧
          (∀ limit, outcome.result = .error (.stepLimitExceeded limit) →
            (executed (c.tried .run)).length = limit ∧ .halt ∉ executed (c.tried .run)) ∧
          ∀ fault, outcome.result = .error fault → (∀ limit, fault ≠ .stepLimitExceeded limit) →
            ∃ k, c.GoesOn k ∧ c.answer k = .error fault ∧ (executed (c.tried .run)).length = k ∧
              .halt ∉ executed (c.tried .run)) ∧
      (∀ running, c.step.result = .ok running → ∃ i f q, c.machine.fetch = .ok (i, f) ∧
        c.step.computer.profile = some q ∧ p.Adds [i] q) ∧
      (∀ fault, c.step.result = .error fault → c.step.computer.profile = some p) ∧
      (∀ source, (c.loadFrom source).computer.profile = some p) ∧
      ∀ op first second,
        ((Operation.combine op first second).outcome c).computer.profile = some p := by
  have hempty : (new settings output log).evidence.profile = some .empty := by
    rw [evidence, new, hp]
    rfl
  obtain ⟨p, hc, hadds⟩ := adds_of_trail hempty (trail_of_session hs)
  obtain ⟨htotal, hcount⟩ := Profile.adds_empty hadds
  refine ⟨p, hc, htotal, hcount, ?_, fun outcome hrun ↦ ?_, fun running hrunning ↦ ?_,
    fun fault hfault ↦ ?_, fun source ↦ ?_, fun op first second ↦ ?_⟩
  · rw [p.sum_rows, funext hcount, Profile.sum_count, htotal]
  · obtain ⟨q, hq, hadds⟩ := adds_of_trail hc (trail_of_ends (ends_of_run hrun))
    obtain ⟨result, d⟩ := outcome
    refine ⟨q, hq, hadds, ?_, ?_, ?_⟩
    · rintro n rfl
      exact executed_of_halted hrun
    · rintro limit rfl
      exact executed_of_limited hrun
    · rintro fault rfl hf
      exact executed_of_failed hrun hf
  · obtain ⟨i, f, hf, he⟩ := executed?_of_result hrunning
    refine ⟨i, f, p.records [i], hf, ?_, p.adds_records _⟩
    rw [c.profile_step, he, show c.profile = some p from hc]
    rfl
  · rw [c.profile_step, executed?_of_error hfault, show c.profile = some p from hc]
    rfl
  · exact (congrArg Evidence.profile (c.evidence_loadFrom source)).trans hc
  · exact (congrArg Evidence.profile (c.evidence_combine op first second)).trans hc

def counting : Settings :=
  { stepLimit := some 6, profiling := true }

theorem profile_accounts_counting :
    counting.profiling = true ∧
    ∃ replies c p,
      (new counting (.values #[]) ⟨.warn, #[]⟩).session
          [.load (.bytes [0x82, 0, 7, 0x47, 0, 0x01]), .step, .run, .combine .div 0 1] =
        some (replies, c) ∧
      c.profile = some p ∧ p.total = 3 ∧
      (∀ i, p.count i = [Instruction.loadImmediate, .print, .halt].count i) ∧
      (p.rows.map Prod.snd).sum = 3 := by
  have hp : counting.profiling = true := rfl
  refine ⟨hp, ?_⟩
  let start := new counting (.values #[]) ⟨.warn, #[]⟩
  let calls : List Call :=
    [.load (.bytes [0x82, 0, 7, 0x47, 0, 0x01]), .step, .run, .combine .div 0 1]
  have hsome : (start.session calls).isSome := by decide +kernel
  have hexecuted : executed (start.trials calls) = [.loadImmediate, .print, .halt] := by
    decide +kernel
  obtain ⟨⟨replies, c⟩, hs⟩ := Option.isSome_iff_exists.mp hsome
  obtain ⟨p, hc, htotal, hcount, hrows, -⟩ := profile_accounts hp (.values #[]) ⟨.warn, #[]⟩ hs
  rw [hexecuted] at htotal hcount
  exact ⟨replies, c, p, hs, hc, htotal, hcount, hrows.trans htotal⟩

end Computer

end ByteMachine
