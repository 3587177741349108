import ByteMachine.CommandLine.Report
import ByteMachine.Proofs.Runs
import Mathlib.Algebra.Ring.Nat

namespace ByteMachine

namespace Output

def fitting (room? : Option Nat) (value : UInt8) : List Char :=
  room?.elim (line value) fun room ↦ (line value).take room

theorem text_offer (output : Output) (value : UInt8) :
    (output.offer (some value)).text = output.text ++ String.ofList (fitting output.room? value) := by
  rcases output with bytes | ⟨text, _ | room⟩
  · have ho : (values bytes).offer (some value) = values (bytes.push value) := offer_of_ok rfl
    rw [ho, Output.text, Output.text, Array.toList_push, List.flatMap_append, String.ofList_append,
      List.flatMap_singleton]
    rfl
  · have ho : (lines text none).offer (some value) =
        lines (text ++ String.ofList (line value)) none := offer_of_ok rfl
    rw [ho]
    rfl
  · rw [offer_lines]
    rfl

@[simp]
theorem room?_drain (output : Output) : output.drain.room? = output.room? := by
  cases output <;> rfl

@[simp]
theorem text_drain (output : Output) : output.drain.text = "" := by
  cases output <;> rfl

end Output

namespace Log

@[simp]
theorem threshold_record (log : Log) (event : Event) :
    (log.record event).threshold = log.threshold := by
  rw [record]
  split <;> rfl

theorem events_record (log : Log) (event : Event) :
    (log.record event).events.toList = log.events.toList ++
      if event.level.rank ≤ log.threshold.rank then [event] else [] := by
  rw [record]
  split
  · exact Array.toList_push
  · exact (List.append_nil _).symm

end Log

namespace Computer

/-- The second computer is the first one without a text and events that were shown already. -/
structure Behind (text : String) (told : List Event) (c d : Computer) : Prop where
  machine : d.machine = c.machine
  stepLimit : d.stepLimit = c.stepLimit
  profile : d.profile = c.profile
  room : d.output.room? = c.output.room?
  text : c.output.text = text ++ d.output.text
  threshold : d.log.threshold = c.log.threshold
  events : c.log.events.toList = told ++ d.log.events.toList

inductive EndsBehind (text : String) (told : List Event) : Progress → Progress → Prop
  | ended {o p : Outcome Nat} (hr : p.result = o.result)
      (h : Behind text told o.computer p.computer) : EndsBehind text told (.ended o) (.ended p)
  | paused {taken : Nat} {c d : Computer} (h : Behind text told c d) :
      EndsBehind text told (.paused taken c) (.paused taken d)

namespace Behind

variable {text : String} {told : List Event} {c d : Computer}

theorem tell (h : Behind text told c d) (event : Event) :
    Behind text told (c.tell event) (d.tell event) := by
  refine ⟨h.machine, h.stepLimit, h.profile, h.room, h.text, ?_, ?_⟩
  · simp only [Computer.tell, Log.threshold_record, h.threshold]
  · simp only [Computer.tell, Log.events_record, h.threshold, h.events, List.append_assoc]

theorem stop (h : Behind text told c d) : Behind text told c.stop d.stop :=
  ⟨h.machine, h.stepLimit, h.profile, h.room, h.text, h.threshold, h.events⟩

theorem step (h : Behind text told c d) :
    d.step.result = c.step.result ∧ Behind text told c.step.computer d.step.computer := by
  have hok (value : UInt8) : (d.output.print value).isOk = (c.output.print value).isOk := by
    rw [Output.print_isOk, Output.print_isOk, h.room]
  obtain ⟨hresult, hmachine⟩ := step_congr h.machine fun value _ ↦ hok value
  refine ⟨hresult, hmachine, ?_, ?_, ?_, ?_, ?_, ?_⟩
  · rw [stepLimit_step, stepLimit_step, h.stepLimit]
  · rw [profile_step, profile_step, h.profile, executed?_congr h.machine hresult]
  · rw [offer_step, offer_step, h.machine]
    exact Output.room?_offer_congr h.room _
  · rw [offer_step, offer_step, h.machine]
    cases c.machine.printing? with
    | none => exact h.text
    | some value =>
      rw [Output.text_offer, Output.text_offer, h.room, h.text, String.append_assoc]
  · have ht := (h.tell (.executing c.machine)).threshold
    rw [log_step, log_step, h.machine]
    split
    · exact ht
    · exact h.threshold
  · have he := (h.tell (.executing c.machine)).events
    rw [log_step, log_step, h.machine]
    split
    · exact he
    · exact h.events

/-- The run lemma: by induction on the steps that are allowed. -/
theorem advance (h : Behind text told c d) (fuel taken : Nat) :
    EndsBehind text told (Computer.advance fuel taken c) (Computer.advance fuel taken d) := by
  induction fuel generalizing taken c d with
  | zero => exact .paused h
  | succ fuel ih =>
    have hx : d.exhausted? taken = c.exhausted? taken := by
      rw [exhausted?, exhausted?, h.stepLimit]
    cases hc : c.exhausted? taken with
    | some limit =>
      rw [advance_of_exhausted fuel hc, advance_of_exhausted fuel (hx.trans hc), h.machine]
      exact .ended rfl (h.stop.tell _)
    | none =>
      obtain ⟨hresult, hnext⟩ := h.step
      rw [advance_succ fuel hc, advance_succ fuel (hx.trans hc), hresult]
      rcases c.step.result with fault | _ | _
      · exact .ended rfl hnext.stop
      · exact .ended rfl (hnext.tell _)
      · exact ih hnext (taken + 1)

end Behind

def proceed (fuel : Nat) : Progress → Progress
  | .ended outcome => .ended outcome
  | .paused taken c => advance fuel taken c

theorem advance_add (m n taken : Nat) (c : Computer) :
    advance (m + n) taken c = proceed n (advance m taken c) := by
  induction m generalizing taken c with
  | zero =>
    rw [Nat.zero_add]
    rfl
  | succ m ih =>
    rw [Nat.add_right_comm]
    cases hc : c.exhausted? taken with
    | some limit =>
      rw [advance_of_exhausted _ hc, advance_of_exhausted _ hc]
      rfl
    | none =>
      rw [advance_succ _ hc, advance_succ _ hc]
      rcases c.step.result with fault | _ | _
      · rfl
      · rfl
      · exact ih (taken + 1) _

end Computer

namespace CommandLine

open Computer

def Report.behind (output : String) (diagnostics : List String) (r : Report) : Report :=
  { r with output := output ++ r.output, diagnostics := diagnostics ++ r.diagnostics }

/-- Lets a run go on in slices of so many steps, shows after each what the computer has printed and
told, and shows the report in the end, if the run ends within the slices. -/
def slices : List Nat → Nat → Computer → Option Report
  | [], _, _ => none
  | fuel :: fuels, taken, c =>
    match advance fuel taken c with
    | .ended outcome => some (report outcome)
    | .paused taken c =>
      let (output, diagnostics, c) := release c
      (slices fuels taken c).map (Report.behind output diagnostics)

def ended? : Progress → Option Report
  | .ended outcome => some (report outcome)
  | .paused _ _ => none

variable {c d : Computer} {text : String} {told : List Event}

theorem behind_release (c : Computer) :
    Behind c.output.text c.log.events.toList c (release c).2.2 := by
  refine ⟨rfl, rfl, rfl, c.output.room?_drain, ?_, rfl, (List.append_nil _).symm⟩
  have hdrain : (release c).2.2.output.text = "" := c.output.text_drain
  rw [hdrain, String.append_empty]

theorem report_behind {o p : Outcome Nat} (hr : p.result = o.result)
    (h : Behind text told o.computer p.computer) :
    report o = (report p).behind text (told.map eventLine) := by
  obtain ⟨result, c⟩ := o
  obtain ⟨result', d⟩ := p
  obtain rfl : result' = result := hr
  have hdiagnostics : c.log.events.toList.map eventLine ++ (c.profile.map profileLines).getD [] =
      told.map eventLine ++
        (d.log.events.toList.map eventLine ++ (d.profile.map profileLines).getD []) := by
    rw [h.events, h.profile, List.map_append, List.append_assoc]
  cases result' with
  | ok steps => simp only [report, Report.behind, h.text, hdiagnostics]
  | error fault => simp only [report, Report.behind, h.text, hdiagnostics]

theorem slices_eq (fuels : List Nat) (taken : Nat) (c : Computer) :
    slices fuels taken c = ended? (advance fuels.sum taken c) := by
  induction fuels generalizing taken c with
  | nil => rfl
  | cons fuel fuels ih =>
    rw [slices, List.sum_cons, advance_add]
    cases advance fuel taken c with
    | ended outcome => rfl
    | paused taken d =>
      have hends := (behind_release d).advance fuels.sum taken
      dsimp only
      rw [ih, proceed]
      generalize advance fuels.sum taken d = full at hends ⊢
      generalize advance fuels.sum taken (release d).2.2 = cut at hends ⊢
      cases hends with
      | ended hr h => exact congrArg some (report_behind hr h).symm
      | paused h => rfl

/-- A run that ends shows in slices what it reports. -/
theorem slices_of_run {outcome : Outcome Nat} (h : c.run = some outcome) {size : Nat}
    (hs : 0 < size) :
    ∃ k, slices (List.replicate k size) 0 c.start = some (report outcome) := by
  have hended : advance c.patience 0 c.start = .ended outcome := by
    rw [run] at h
    split at h
    · cases h
      assumption
    · cases h
  obtain ⟨more, hmore⟩ := Nat.exists_eq_add_of_le (Nat.le_mul_of_pos_right c.patience hs)
  refine ⟨c.patience, ?_⟩
  rw [slices_eq, List.sum_replicate_nat, hmore, advance_add, hended]
  rfl

theorem slices_of_endless (h : c.run = none) (fuels : List Nat) :
    slices fuels 0 c.start = none := by
  obtain ⟨hl, hgo⟩ := run_eq_none_iff.mp h
  rw [slices_eq]
  cases fuels.sum with
  | zero => rfl
  | succ n =>
    have hp := advance_after 0 (hgo (n + 1)) (by rw [hl]; nofun)
    rw [Nat.add_zero] at hp
    rw [advance_start, hp]
    rfl

end CommandLine

end ByteMachine
