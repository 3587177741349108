import ByteMachine.Proofs.Attempts

namespace ByteMachine.Computer

variable {c d : Computer}

/-- Computers that are related step alike as long as the first of them meets a condition, and are
related again. The relation does not look at status and log, and lets the machines change, if only
in the same way. -/
structure Simulation (P : Computer → Prop) (R : Computer → Computer → Prop) : Prop where
  machine : ∀ {c d}, R c d → d.machine = c.machine
  stepLimit : ∀ {c d}, R c d → d.stepLimit = c.stepLimit
  step : ∀ {c d}, R c d → P c → d.step.result = c.step.result ∧ R c.step.computer d.step.computer
  marked : ∀ {c d}, R c d → ∀ s t log log', R (c.marked s log) (d.marked t log')
  withMachine : ∀ {c d}, R c d → ∀ m, R (c.withMachine m) (d.withMachine m)

namespace Simulation

variable {P : Computer → Prop} {R : Computer → Computer → Prop} {n : Nat}

theorem after (h : Simulation P R) (hr : R c d) (hp : ∀ k < n, P (c.after k)) :
    R (c.after n) (d.after n) := by
  induction n with
  | zero => exact hr
  | succ n ih =>
    rw [after_succ, after_succ]
    exact (h.step (ih fun k hk ↦ hp k (by omega)) (hp n (by omega))).2

theorem answer (h : Simulation P R) (hr : R c d) (hp : ∀ k < n + 1, P (c.after k)) :
    d.answer n = c.answer n :=
  (h.step (h.after hr fun k hk ↦ hp k (by omega)) (hp n (by omega))).1

theorem goesOn (h : Simulation P R) (hr : R c d) (hp : ∀ k < n, P (c.after k))
    (hgo : c.GoesOn n) : d.GoesOn n := by
  intro k hk
  rw [h.answer hr fun j hj ↦ hp j (by omega)]
  exact hgo k hk

theorem forall₂_after (h : Simulation P R) (hr : R c d) (hp : ∀ k < n, P (c.after k)) :
    List.Forall₂ R ((List.range n).map c.after) ((List.range n).map d.after) := by
  rw [List.forall₂_map_left_iff, List.forall₂_map_right_iff, List.forall₂_same]
  intro k hk
  rw [List.mem_range] at hk
  exact h.after hr fun j hj ↦ hp j (by omega)

theorem of_forall_range {Q : Computer → Prop} (h : ∀ e ∈ (List.range n).map c.after, Q e) :
    ∀ k < n, Q (c.after k) :=
  fun k hk ↦ h _ (List.mem_map.mpr ⟨k, List.mem_range.mpr hk, rfl⟩)

theorem of_stop (h : Simulation P R) (hr : R c d) (hgo : c.GoesOn n)
    (hl : ∀ limit ∈ c.stepLimit, n < limit) (ha : c.answer n ≠ .ok true)
    (hp : ∀ e ∈ c.tried .run, P e) :
    d.GoesOn n ∧ (∀ limit ∈ d.stepLimit, n < limit) ∧ d.answer n = c.answer n ∧
      R (c.after (n + 1)) (d.after (n + 1)) ∧ List.Forall₂ R (c.tried .run) (d.tried .run) := by
  rw [tried_of_stop hgo hl ha] at hp ⊢
  have hp := of_forall_range hp
  have hgo' : d.GoesOn n := h.goesOn hr (fun k hk ↦ hp k (by omega)) hgo
  have ha' : d.answer n = c.answer n := h.answer hr hp
  have hl' : ∀ limit ∈ d.stepLimit, n < limit := by
    rw [h.stepLimit hr]
    exact hl
  rw [tried_of_stop hgo' hl' (by rw [ha']; exact ha)]
  exact ⟨hgo', hl', ha', h.after hr hp, h.forall₂_after hr hp⟩

/-- Runs in lockstep end in the same way. -/
theorem ends (h : Simulation P R) (hr : R c d) {outcome : Outcome Nat} (he : Ends c outcome)
    (hp : ∀ e ∈ c.tried .run, P e) :
    ∃ other, Ends d other ∧ other.result = outcome.result ∧ R outcome.computer other.computer ∧
      List.Forall₂ R (c.tried .run) (d.tried .run) := by
  cases he with
  | halt n hgo hl ha =>
    obtain ⟨hgo', hl', ha', hr', ht⟩ := h.of_stop hr hgo hl (by rw [ha]; nofun) hp
    exact ⟨_, .halt n hgo' hl' (ha'.trans ha), rfl, h.marked hr' _ _ _ _, ht⟩
  | error n fault hgo hl ha =>
    obtain ⟨hgo', hl', ha', hr', ht⟩ := h.of_stop hr hgo hl (by rw [ha]; nofun) hp
    exact ⟨_, .error n fault hgo' hl' (ha'.trans ha), rfl, h.marked hr' _ _ _ _, ht⟩
  | limit limit hl hgo =>
    rw [tried_of_limit hl hgo] at hp ⊢
    have hp := of_forall_range hp
    have hgo' := h.goesOn hr hp hgo
    rw [← h.stepLimit hr] at hl
    rw [tried_of_limit hl hgo']
    exact ⟨_, .limit limit hl hgo', rfl, h.marked (h.after hr hp) _ _ _ _, h.forall₂_after hr hp⟩

theorem load (h : Simulation P R) (hr : R c d) (source : Source) :
    (d.loadFrom source).result = (c.loadFrom source).result ∧
      R (c.loadFrom source).computer (d.loadFrom source).computer := by
  obtain ⟨log, hc⟩ := c.loadFrom_eq source
  obtain ⟨log', hd⟩ := d.loadFrom_eq source
  rw [hc, hd, h.machine hr]
  cases source.image c.machine.memory with
  | error fault => exact ⟨rfl, h.marked hr _ _ _ _⟩
  | ok memory => exact ⟨rfl, h.marked (h.withMachine hr _) _ _ _ _⟩

theorem combine (h : Simulation P R) (hr : R c d) (op : Arithmetic) (first second : UInt8) :
    ((Operation.combine op first second).outcome d).result =
        ((Operation.combine op first second).outcome c).result ∧
      R ((Operation.combine op first second).outcome c).computer
        ((Operation.combine op first second).outcome d).computer := by
  have hm := h.machine hr
  rw [Operation.outcome_combine, Operation.outcome_combine, hm]
  cases c.machine.registers.combine op first second with
  | error fault => exact ⟨rfl, hr⟩
  | ok registers =>
    have hd : d.withRegisters registers = d.withMachine { c.machine with registers } := by
      rw [← hm]
      rfl
    dsimp only
    rw [hd]
    exact ⟨rfl, h.withMachine hr _⟩

theorem call (h : Simulation P R) (hr : R c d) {call : Call} {outcome : Outcome Reply}
    (ho : c.call call = some outcome) (hp : ∀ e ∈ c.tried call, P e) :
    ∃ other, d.call call = some other ∧ other.result = outcome.result ∧
      R outcome.computer other.computer ∧ List.Forall₂ R (c.tried call) (d.tried call) := by
  cases call with
  | load source =>
    cases ho
    obtain ⟨hresult, hr'⟩ := h.load hr source
    exact ⟨_, rfl, congrArg (Except.map _) hresult, hr', .nil⟩
  | step =>
    cases ho
    obtain ⟨hresult, hr'⟩ := h.step hr (hp c List.mem_cons_self)
    exact ⟨_, rfl, congrArg (Except.map _) hresult, hr', .cons hr .nil⟩
  | run =>
    obtain ⟨ended, hrun, rfl⟩ := Option.map_eq_some_iff.mp ho
    obtain ⟨other, he, hresult, hr', ht⟩ := h.ends hr (ends_of_run hrun) hp
    refine ⟨other.map .ended, ?_, congrArg (Except.map _) hresult, hr', ht⟩
    rw [Computer.call, run_of_ends he]
    rfl
  | combine op first second =>
    cases ho
    obtain ⟨hresult, hr'⟩ := h.combine hr op first second
    exact ⟨_, rfl, congrArg (Except.map _) hresult, hr', .nil⟩

/-- The run lemma for sessions: by induction on the calls. -/
theorem session (h : Simulation P R) {calls : List Call} {replies : List (Except Fault Reply)}
    {c' : Computer} (hr : R c d) (hs : c.session calls = some (replies, c'))
    (hp : ∀ e ∈ c.trials calls, P e) :
    ∃ d', d.session calls = some (replies, d') ∧ R c' d' ∧
      List.Forall₂ R (c.trials calls) (d.trials calls) := by
  induction calls generalizing c d replies with
  | nil =>
    cases hs
    exact ⟨d, rfl, hr, .nil⟩
  | cons call calls ih =>
    obtain ⟨outcome, rest, ho, hrest, rfl⟩ := session_cons hs
    rw [trials_cons calls ho] at hp ⊢
    obtain ⟨hcall, hcalls⟩ := List.forall_mem_append.mp hp
    obtain ⟨other, ho', hresult, hr', ht⟩ := h.call hr ho hcall
    obtain ⟨d', hs', hr'', hts⟩ := ih hr' hrest hcalls
    refine ⟨d', ?_, hr'', ?_⟩
    · rw [← hresult]
      exact session_of_call ho' hs'
    · rw [trials_cons calls ho']
      exact List.rel_append ht hts

end Simulation

end ByteMachine.Computer
