import ByteMachine.Proofs.Sessions

namespace ByteMachine

def Output.offers (output : Output) (values : List UInt8) : Output :=
  values.foldl (fun o value ↦ o.offer (some value)) output

namespace Computer

/-- The computers on which steps are tried, at most `n` of them and none behind a step that does not
leave the computer running. -/
def attempts : Nat → Computer → List Computer
  | 0, _ => []
  | n + 1, c => c :: if c.step.result = .ok true then attempts n c.step.computer else []

def tried (c : Computer) : Call → List Computer
  | .load _ | .combine _ _ _ => []
  | .step => [c]
  | .run => attempts (c.stepLimit.getD (c.configurations + 1)) c

def trials (c : Computer) : List Call → List Computer
  | [] => []
  | call :: calls =>
    c.tried call ++ ((c.call call).map fun outcome ↦ outcome.computer.trials calls).getD []

def printed (es : List Computer) : List UInt8 :=
  es.filterMap fun e ↦ e.machine.printing?

variable {c d e : Computer}

theorem trials_cons {call : Call} {outcome : Outcome Reply} (calls : List Call)
    (h : c.call call = some outcome) :
    c.trials (call :: calls) = c.tried call ++ outcome.computer.trials calls := by
  rw [trials, h, Option.map_some, Option.getD_some]

section

variable {m n : Nat}

theorem attempts_add (h : c.GoesOn m) (n : Nat) :
    attempts (m + n) c = (List.range m).map c.after ++ attempts n (c.after m) := by
  induction m generalizing n with
  | zero => rw [Nat.zero_add]; rfl
  | succ m ih =>
    have ha : (c.after m).step.result = .ok true := h m (Nat.lt_succ_self m)
    rw [Nat.add_right_comm, Nat.add_assoc, ih (h.mono (Nat.le_succ m)), attempts, if_pos ha,
      ← after_succ, List.range_succ, List.map_append, List.append_assoc]
    rfl

theorem tried_of_stop (h : c.GoesOn n) (hl : ∀ limit ∈ c.stepLimit, n < limit)
    (ha : c.answer n ≠ .ok true) : c.tried .run = (List.range (n + 1)).map c.after := by
  have hlt : n < c.stepLimit.getD (c.configurations + 1) := by
    cases hs : c.stepLimit with
    | some limit => exact hl limit hs
    | none =>
      by_contra hn
      exact ha (goesOn_of_configurations (h.mono (Nat.not_lt.mp hn)) (n + 1) n (by omega))
  obtain ⟨k, hk⟩ := Nat.exists_eq_add_of_lt hlt
  have hlast : (c.after n).step.result ≠ .ok true := ha
  have hstop : attempts (k + 1) (c.after n) = [c.after n] := by
    rw [attempts, if_neg hlast]
  rw [tried, hk, Nat.add_assoc, attempts_add h, hstop, List.range_succ, List.map_append]
  rfl

theorem tried_of_limit {limit : Nat} (hl : c.stepLimit = some limit) (h : c.GoesOn limit) :
    c.tried .run = (List.range limit).map c.after := by
  rw [tried, hl, Option.getD_some, ← Nat.add_zero limit, attempts_add h]
  exact List.append_nil _

end

/-- What steps leave behind apart from the machine. -/
structure Evidence where
  profile : Option Profile
  output : Output

def evidence (c : Computer) : Evidence :=
  ⟨c.profile, c.output⟩

/-- Steps in a row: each finds the evidence that the one before has left. -/
inductive Trail : Evidence → List Computer → Evidence → Prop
  | nil (v : Evidence) : Trail v [] v
  | cons {es : List Computer} {w : Evidence} (e : Computer)
      (h : Trail e.step.computer.evidence es w) : Trail e.evidence (e :: es) w

namespace Trail

variable {u v w : Evidence} {es fs : List Computer}

theorem append (h : Trail u es v) (h' : Trail v fs w) : Trail u (es ++ fs) w := by
  induction h with
  | nil => exact h'
  | cons e _ ih => exact .cons e (ih h')

theorem before (h : Trail v (es ++ e :: fs) w) : Trail v es e.evidence := by
  induction es generalizing v with
  | nil =>
    cases h
    exact .nil _
  | cons d es ih =>
    cases h with
    | cons _ h => exact .cons d (ih h)

end Trail

theorem trail_after (c : Computer) (n : Nat) :
    Trail c.evidence ((List.range n).map c.after) (c.after n).evidence := by
  induction n with
  | zero => exact .nil _
  | succ n ih =>
    rw [List.range_succ, List.map_append, after_succ]
    exact ih.append (.cons _ (.nil _))

theorem trail_of_ends {outcome : Outcome Nat} (h : Ends c outcome) :
    Trail c.evidence (c.tried .run) outcome.computer.evidence := by
  cases h with
  | halt n h hl ha =>
    rw [tried_of_stop h hl (by rw [ha]; nofun)]
    exact c.trail_after (n + 1)
  | error n fault h hl ha =>
    rw [tried_of_stop h hl (by rw [ha]; nofun)]
    exact c.trail_after (n + 1)
  | limit limit hl h =>
    rw [tried_of_limit hl h]
    exact c.trail_after limit

theorem evidence_loadFrom (c : Computer) (source : Source) :
    (c.loadFrom source).computer.evidence = c.evidence := by
  obtain ⟨memory, log, hc⟩ := c.computer_loadFrom source
  rw [hc]
  rfl

theorem evidence_combine (c : Computer) (op : Arithmetic) (first second : UInt8) :
    ((Operation.combine op first second).outcome c).computer.evidence = c.evidence := by
  rw [Operation.outcome_combine]
  cases c.machine.registers.combine op first second <;> rfl

theorem trail_of_call {call : Call} {outcome : Outcome Reply} (h : c.call call = some outcome) :
    Trail c.evidence (c.tried call) outcome.computer.evidence := by
  cases call with
  | load source =>
    cases h
    exact c.evidence_loadFrom source ▸ .nil _
  | step =>
    cases h
    exact .cons c (.nil _)
  | run =>
    obtain ⟨ended, hr, rfl⟩ := Option.map_eq_some_iff.mp h
    exact trail_of_ends (ends_of_run hr)
  | combine op first second =>
    cases h
    exact c.evidence_combine op first second ▸ .nil _

/-- The run lemma for sessions: by induction on the calls. -/
theorem trail_of_session {calls : List Call} {replies : List (Except Fault Reply)}
    (h : c.session calls = some (replies, d)) : Trail c.evidence (c.trials calls) d.evidence := by
  induction calls generalizing c replies with
  | nil =>
    cases h
    exact .nil _
  | cons call calls ih =>
    obtain ⟨outcome, rest, ho, hs, -⟩ := session_cons h
    rw [trials_cons calls ho]
    exact (trail_of_call ho).append (ih hs)

theorem printed_append (es fs : List Computer) : printed (es ++ fs) = printed es ++ printed fs :=
  List.filterMap_append

theorem Trail.output {v w : Evidence} {es : List Computer} (h : Trail v es w) :
    w.output = v.output.offers (printed es) := by
  induction h with
  | nil => rfl
  | @cons es w e _ ih =>
    have he : e.step.computer.evidence.output = e.output.offer e.machine.printing? := e.offer_step
    rw [ih, he, printed, printed, List.filterMap_cons]
    cases e.machine.printing? <;> rfl

end Computer

end ByteMachine
