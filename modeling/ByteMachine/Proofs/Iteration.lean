import ByteMachine.Computer.Run
import ByteMachine.Proofs.Step
import Mathlib.Logic.Function.Iterate

namespace ByteMachine.Computer

variable {c : Computer}

def after (c : Computer) (n : Nat) : Computer :=
  (fun d ↦ d.step.computer)^[n] c

def answer (c : Computer) (n : Nat) : Except Fault Bool :=
  (c.after n).step.result

/-- The first `n` steps all leave the computer running. -/
def GoesOn (c : Computer) (n : Nat) : Prop :=
  ∀ k < n, c.answer k = .ok true

theorem after_succ (n : Nat) : c.after (n + 1) = (c.after n).step.computer :=
  Function.iterate_succ_apply' _ n c

theorem after_add (m n : Nat) : c.after (m + n) = (c.after m).after n := by
  rw [after, Nat.add_comm, Function.iterate_add_apply]
  rfl

theorem goesOn_zero (c : Computer) : c.GoesOn 0 :=
  fun k hk ↦ absurd hk (Nat.not_lt_zero k)

theorem GoesOn.mono {m n : Nat} (h : c.GoesOn n) (hm : m ≤ n) : c.GoesOn m :=
  fun k hk ↦ h k (by omega)

theorem GoesOn.succ {n : Nat} (h : c.GoesOn n) (ha : c.answer n = .ok true) : c.GoesOn (n + 1) := by
  intro k hk
  obtain hk | rfl := Nat.lt_succ_iff_lt_or_eq.mp hk
  · exact h k hk
  · exact ha

theorem stepLimit_step : c.step.computer.stepLimit = c.stepLimit := by
  have hs := c.steps_step
  generalize c.step = outcome at hs ⊢
  cases hs with
  | unfetched | refused | unprinted => rfl
  | silent | printed => exact stepLimit_complete _ _ _ _

theorem stepLimit_after (n : Nat) : (c.after n).stepLimit = c.stepLimit := by
  induction n with
  | zero => rfl
  | succ n ih => rw [after_succ, stepLimit_step, ih]

theorem status_of_step {b : Bool} (h : c.step.result = .ok b) :
    c.step.computer.status = .running ↔ b = true := by
  have hs := c.steps_step
  generalize c.step = outcome at h hs ⊢
  cases hs with
  | unfetched | refused | unprinted => cases h
  | silent =>
    cases h
    rw [status_complete, decide_eq_true_iff]
  | printed =>
    cases h
    rw [status_complete]
    simp

theorem step_start :
    c.start.step.result = c.step.result ∧ c.start.step.computer.stop = c.step.computer.stop ∧
      ∀ b, c.step.result = .ok b → c.start.step.computer = c.step.computer := by
  cases hf : c.machine.fetch with
  | error fault =>
    rw [step_of_fetch_error hf, step_of_fetch_error (c := c.start) hf]
    exact ⟨rfl, rfl, nofun⟩
  | ok x =>
    obtain ⟨i, f⟩ := x
    rw [step_of_fetch hf, step_of_fetch (c := c.start) hf]
    have hm : c.start.machine = c.machine := rfl
    have ho : c.start.output = c.output := rfl
    rw [hm, ho]
    rcases i.action.effect f c.machine with fault | ⟨machine, flow, _ | value⟩
    · exact ⟨rfl, rfl, nofun⟩
    · cases flow <;> exact ⟨rfl, rfl, fun _ _ ↦ rfl⟩
    · dsimp only
      cases c.output.print value with
      | error output => exact ⟨rfl, rfl, nofun⟩
      | ok output => cases flow <;> exact ⟨rfl, rfl, fun _ _ ↦ rfl⟩

section

variable {taken : Nat} (fuel : Nat)

theorem advance_of_exhausted {limit : Nat} (h : c.exhausted? taken = some limit) :
    advance (fuel + 1) taken c =
      .ended ⟨.error (.stepLimitExceeded limit), c.stop.tell (.stopping c.machine.pc limit)⟩ := by
  rw [advance, h]

theorem advance_succ (h : c.exhausted? taken = none) :
    advance (fuel + 1) taken c =
      match c.step.result with
      | .error fault => .ended ⟨.error fault, c.step.computer.stop⟩
      | .ok false => .ended ⟨.ok (taken + 1), c.step.computer.tell (.halted (taken + 1))⟩
      | .ok true => advance fuel (taken + 1) c.step.computer := by
  rw [advance, h]
  generalize c.step = outcome
  obtain ⟨fault | b, d⟩ := outcome
  · rfl
  · cases b <;> rfl

theorem advance_start (taken : Nat) :
    advance (fuel + 1) taken c.start = advance (fuel + 1) taken c := by
  obtain ⟨hr, hs, hc⟩ := c.step_start
  have he : c.start.exhausted? taken = c.exhausted? taken := rfl
  cases hx : c.exhausted? taken with
  | some limit =>
    rw [advance_of_exhausted fuel hx, advance_of_exhausted fuel (he.trans hx)]
    rfl
  | none =>
    rw [hx] at he
    cases ha : c.step.result with
    | error fault =>
      simp only [advance_succ fuel hx, advance_succ fuel he, hr, ha, hs]
    | ok b => simp only [advance_succ fuel hx, advance_succ fuel he, hr, ha, hc b ha]

end

theorem exhausted?_eq_none {taken : Nat} (h : ∀ limit ∈ c.stepLimit, taken < limit) :
    c.exhausted? taken = none := by
  rw [exhausted?, Option.filter_eq_none_iff]
  intro limit hl hle
  exact Nat.not_lt.mpr (of_decide_eq_true hle) (h limit hl)

theorem exhausted?_eq_some {limit : Nat} (h : c.stepLimit = some limit) :
    c.exhausted? limit = some limit := by
  simp [exhausted?, h]

/-- The loop has come as far as the steps have: the counter counts them. -/
theorem advance_after (fuel : Nat) {n : Nat} (h : c.GoesOn n)
    (hl : ∀ limit ∈ c.stepLimit, n ≤ limit) :
    advance (n + fuel) 0 c = advance fuel n (c.after n) := by
  induction n generalizing fuel with
  | zero => rw [Nat.zero_add]; rfl
  | succ n ih =>
    have hn : ∀ limit ∈ (c.after n).stepLimit, n < limit := by
      rw [stepLimit_after]
      exact hl
    have hs : n + 1 + fuel = n + (fuel + 1) := by omega
    have ha : (c.after n).step.result = .ok true := h n (by omega)
    rw [hs, ih (fuel + 1) (h.mono (by omega)) fun limit hm ↦ Nat.le_of_lt (hl limit hm),
      advance_succ fuel (exhausted?_eq_none hn), ha, after_succ]

end ByteMachine.Computer
