import ByteMachine.Proofs.Lockstep
import ByteMachine.Proofs.Resumption

namespace ByteMachine

namespace Output

/-- Some values are printed in order, none of them in vain. -/
def Receives (before : Output) (values : List UInt8) (after : Output) : Prop :=
  values.foldlM (fun o value ↦ o.print value) before = .ok after

def NeverFails (output : Output) : Prop :=
  ∀ values, ∃ after, output.Receives values after

variable {output : Output} {value : UInt8}

theorem receives_cons_iff {values : List UInt8} {after : Output} :
    output.Receives (value :: values) after ↔
      ∃ next, output.print value = .ok next ∧ next.Receives values after := by
  rw [Receives, List.foldlM_cons, bind_eq_ok_iff]
  rfl

theorem Receives.append {values more : List UInt8} {next after : Output}
    (h : output.Receives values next) (hm : next.Receives more after) :
    output.Receives (values ++ more) after := by
  rw [Receives, List.foldlM_append, bind_eq_ok_iff]
  exact ⟨next, h, hm⟩

theorem NeverFails.print (h : output.NeverFails) (value : UInt8) :
    ∃ next, output.print value = .ok next ∧ next.NeverFails := by
  obtain ⟨_, hr⟩ := h [value]
  obtain ⟨next, hp, -⟩ := receives_cons_iff.mp hr
  refine ⟨next, hp, fun values ↦ ?_⟩
  obtain ⟨after, hr⟩ := h (value :: values)
  obtain ⟨other, hp', hr⟩ := receives_cons_iff.mp hr
  cases hp.symm.trans hp'
  exact ⟨after, hr⟩

theorem NeverFails.of_receives (h : output.NeverFails) {values : List UInt8} {next : Output}
    (hr : output.Receives values next) : next.NeverFails := by
  intro more
  obtain ⟨after, ha⟩ := h (values ++ more)
  rw [Receives, List.foldlM_append, bind_eq_ok_iff] at ha
  obtain ⟨other, hv, hm⟩ := ha
  cases hr.symm.trans hv
  exact ⟨after, hm⟩

theorem NeverFails.isOk (h : output.NeverFails) (value : UInt8) : (output.print value).isOk := by
  obtain ⟨next, hp, -⟩ := h.print value
  rw [hp]
  rfl

theorem NeverFails.offer (h : output.NeverFails) (value? : Option UInt8) :
    (output.offer value?).NeverFails := by
  cases value? with
  | none => exact h
  | some value =>
    obtain ⟨next, hp, hn⟩ := h.print value
    rw [offer_of_ok hp]
    exact hn

theorem NeverFails.receives_offer (h : output.NeverFails) (value? : Option UInt8) :
    output.Receives value?.toList (output.offer value?) := by
  cases value? with
  | none => rfl
  | some value =>
    obtain ⟨next, hp, -⟩ := h.print value
    rw [offer_of_ok hp]
    exact receives_cons_iff.mpr ⟨next, hp, rfl⟩

theorem NeverFails.receives_offers (h : output.NeverFails) (values : List UInt8) :
    output.Receives values (output.offers values) := by
  induction values generalizing output with
  | nil => rfl
  | cons value values ih =>
    obtain ⟨next, hp, hn⟩ := h.print value
    refine receives_cons_iff.mpr ⟨next, hp, ?_⟩
    rw [offers, List.foldl_cons, offer_of_ok hp]
    exact ih hn

theorem neverFails_values (bytes : Array UInt8) : (values bytes).NeverFails := by
  intro vs
  induction vs generalizing bytes with
  | nil => exact ⟨_, rfl⟩
  | cons value vs ih =>
    obtain ⟨after, hr⟩ := ih (bytes.push value)
    exact ⟨after, receives_cons_iff.mpr ⟨_, rfl, hr⟩⟩

theorem neverFails_lines (text : String) : (lines text none).NeverFails := by
  intro vs
  induction vs generalizing text with
  | nil => exact ⟨_, rfl⟩
  | cons value vs ih =>
    obtain ⟨after, hr⟩ := ih (text ++ String.ofList (line value))
    exact ⟨after, receives_cons_iff.mpr ⟨_, rfl, hr⟩⟩

end Output

namespace Computer

variable {c d : Computer}

/-- Computers that can differ in what watches them alone. -/
structure Watched (c d : Computer) : Prop where
  machine : d.machine = c.machine
  stepLimit : d.stepLimit = c.stepLimit
  left : c.output.NeverFails
  right : d.output.NeverFails

theorem simulation_watched : Simulation (fun _ ↦ True) Watched where
  machine h := h.machine
  stepLimit h := h.stepLimit
  step := by
    intro c d h _
    have hok (value : UInt8) (_ : c.machine.printing? = some value) :
        (d.output.print value).isOk = (c.output.print value).isOk := by
      rw [h.left.isOk, h.right.isOk]
    obtain ⟨hresult, hm⟩ := step_congr h.machine hok
    refine ⟨hresult, hm, ?_, ?_, ?_⟩
    · rw [stepLimit_step, stepLimit_step, h.stepLimit]
    · rw [offer_step]
      exact h.left.offer _
    · rw [offer_step]
      exact h.right.offer _
  marked h _ _ _ _ := ⟨h.machine, h.stepLimit, h.left, h.right⟩
  withMachine h _ := ⟨rfl, h.stepLimit, h.left, h.right⟩

theorem Watched.symm (h : Watched c d) : Watched d c :=
  ⟨h.machine.symm, h.stepLimit.symm, h.right, h.left⟩

theorem printed_of_forall₂ {es fs : List Computer} (h : List.Forall₂ Watched es fs) :
    printed fs = printed es := by
  induction h with
  | nil => rfl
  | cons hw _ ih =>
    rw [printed, printed, List.filterMap_cons, List.filterMap_cons, hw.machine]
    split
    · exact ih
    · exact congrArg _ ih

theorem Watched.session (h : Watched c d) {calls : List Call} {replies : List (Except Fault Reply)}
    {c' : Computer} (hs : c.session calls = some (replies, c')) :
    ∃ d', d.session calls = some (replies, d') ∧ Watched c' d' ∧
      printed (d.trials calls) = printed (c.trials calls) := by
  obtain ⟨d', hs', hw, ht⟩ := simulation_watched.session h hs fun _ _ ↦ trivial
  exact ⟨d', hs', hw, printed_of_forall₂ ht⟩

theorem receives_of_session (hc : c.output.NeverFails) {calls : List Call}
    {replies : List (Except Fault Reply)} (hs : c.session calls = some (replies, d)) :
    c.output.Receives (printed (c.trials calls)) d.output := by
  have ho : d.output = c.output.offers (printed (c.trials calls)) := (trail_of_session hs).output
  rw [ho]
  exact hc.receives_offers _

/-- Whatever calls are made on two computers that differ in profile, log, status and outputs that
never fail, they answer alike and have the same machine, and both outputs are handed the same
values. A run that never ends on the one never ends on the other, and takes the same steps. -/
theorem session_unwatched (hm : d.machine = c.machine) (hl : d.stepLimit = c.stepLimit)
    (hc : c.output.NeverFails) (hd : d.output.NeverFails) (calls : List Call) :
    (d.session calls).map Prod.fst = (c.session calls).map Prod.fst ∧
    ∀ replies c' d', c.session calls = some (replies, c') → d.session calls = some (replies, d') →
      d'.machine = c'.machine ∧
      c.output.Receives (printed (c.trials calls)) c'.output ∧
      d.output.Receives (printed (c.trials calls)) d'.output ∧
      ∀ n, d'.answer n = c'.answer n ∧ (d'.after n).machine = (c'.after n).machine := by
  have hw : Watched c d := ⟨hm, hl, hc, hd⟩
  constructor
  · cases hs : c.session calls with
    | some x =>
      obtain ⟨replies, c'⟩ := x
      obtain ⟨d', hs', -⟩ := hw.session hs
      rw [hs']
      rfl
    | none =>
      cases hs' : d.session calls with
      | none => rfl
      | some x =>
        obtain ⟨replies, d'⟩ := x
        obtain ⟨c', hs'', -⟩ := hw.symm.session hs'
        cases hs.symm.trans hs''
  · intro replies c' d' hs hs'
    obtain ⟨d'', hs'', hw', hp⟩ := hw.session hs
    cases hs'.symm.trans hs''
    refine ⟨hw'.machine, receives_of_session hc hs, ?_, fun n ↦ ⟨?_, ?_⟩⟩
    · rw [← hp]
      exact receives_of_session hd hs'
    · exact simulation_watched.answer hw' fun _ _ ↦ trivial
    · exact (simulation_watched.after hw' fun _ _ ↦ trivial).machine

/-- About to load a register, print it and halt, with a value printed before and nobody counting. -/
def unprofiled : Computer :=
  { printing with status := .running, profile := none, output := .values #[9] }

theorem session_unwatched_printing :
    unprofiled.machine = printing.machine ∧ unprofiled.stepLimit = printing.stepLimit ∧
    printing.output.NeverFails ∧ unprofiled.output.NeverFails ∧
    ∃ replies c d,
      printing.session [.step, .combine .add 0 0, .step] = some (replies, c) ∧
      unprofiled.session [.step, .combine .add 0 0, .step] = some (replies, d) ∧
      d.machine = c.machine ∧ printing.output.Receives [14] c.output ∧
      unprofiled.output.Receives [14] d.output := by
  have hc : printing.output.NeverFails := Output.neverFails_lines ""
  have hd : unprofiled.output.NeverFails := Output.neverFails_values #[9]
  have hp : printed (printing.trials [.step, .combine .add 0 0, .step]) = [14] := rfl
  have hs : ∃ c, printing.session [.step, .combine .add 0 0, .step] =
      some ([.ok (.running true), .ok .done, .ok (.running true)], c) := ⟨_, rfl⟩
  obtain ⟨c, hs⟩ := hs
  obtain ⟨hreplies, hsame⟩ := session_unwatched (c := printing) (d := unprofiled) rfl rfl hc hd
    [.step, .combine .add 0 0, .step]
  rw [hs] at hreplies
  obtain ⟨⟨replies, d⟩, hs', rfl⟩ := Option.map_eq_some_iff.mp hreplies
  obtain ⟨hm, hrc, hrd, -⟩ := hsame _ c d hs hs'
  rw [hp] at hrc hrd
  exact ⟨rfl, rfl, hc, hd, _, c, d, hs, hs', hm, hrc, hrd⟩

end Computer

end ByteMachine
