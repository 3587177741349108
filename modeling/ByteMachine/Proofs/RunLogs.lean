import ByteMachine.Proofs.Decoding
import ByteMachine.Proofs.Profiles
import ByteMachine.Proofs.Slices

namespace ByteMachine

open Text

def shownNumber (n : Nat) : String :=
  String.ofList (Numeral.upperHexadecimal n)

namespace Machine

def shownCell (m : Machine) (address : Nat) : String :=
  if address < 256 then shownNumber (m.cell address).toNat else "--"

/-- The program counter, the three cells from there on and the registers. -/
def shown (m : Machine) : String :=
  "TRACE: " ++ shownNumber m.pc ++ " | " ++
    " ".intercalate ([m.pc, m.pc + 1, m.pc + 2].map m.shownCell) ++ " | " ++
    " ".intercalate (m.registers.general.toList.map fun value ↦ shownNumber value.toNat)

theorem toList_shownCell (m : Machine) (address : Nat) :
    (m.shownCell address).toList = m.cellText address := by
  rw [shownCell, cellText]
  by_cases h : address < 256
  · rw [if_pos h, m.read_of_lt h]
    exact String.toList_ofList
  · rw [if_neg h, m.read_of_le (Nat.not_lt.mp h)]
    rfl

theorem traceLine_eq_shown (m : Machine) : m.traceLine = m.shown := by
  have hregisters : m.registers.general.toList.map (fun value ↦
        Numeral.upperHexadecimal value.toNat) =
      (m.registers.general.toList.map fun value ↦ shownNumber value.toNat).map String.toList := by
    simp [shownNumber]
  have hne : m.registers.general.toList.map (fun value ↦ shownNumber value.toNat) ≠ [] := by
    simp
  apply String.toList_inj.mp
  rw [traceLine, shown, hregisters]
  generalize m.registers.general.toList.map (fun value ↦ shownNumber value.toNat) = texts at hne ⊢
  cases texts with
  | nil => exact absurd rfl hne
  | cons text texts =>
    simp [String.toList_intercalate, toList_shownCell, shownNumber]

end Machine

def Event.shown (event : Event) : Level × String :=
  (event.level, event.message)

namespace Log

def shown (log : Log) : List (Level × String) :=
  log.events.toList.map Event.shown

def keeps (log : Log) (record : Level × String) : Bool :=
  record.1.rank ≤ log.threshold.rank

/-- A log has been told some records; it shows those that its threshold lets through. -/
structure Grows (before after : Log) (records : List (Level × String)) : Prop where
  threshold : after.threshold = before.threshold
  shown : after.shown = before.shown ++ records.filter before.keeps

namespace Grows

variable {before middle after : Log} {records more : List (Level × String)}

theorem refl (log : Log) : Grows log log [] :=
  ⟨rfl, (List.append_nil _).symm⟩

theorem trans (h : Grows before middle records) (h' : Grows middle after more) :
    Grows before after (records ++ more) := by
  have hkeeps : middle.keeps = before.keeps := by
    funext record
    rw [keeps, keeps, h.threshold]
  refine ⟨h'.threshold.trans h.threshold, ?_⟩
  rw [h'.shown, h.shown, hkeeps, List.filter_append, List.append_assoc]

theorem record (log : Log) (event : Event) : Grows log (log.record event) [event.shown] := by
  refine ⟨log.threshold_record event, ?_⟩
  rw [Log.shown, events_record, List.map_append]
  by_cases h : event.level.rank ≤ log.threshold.rank
  · have hk : log.keeps event.shown = true := decide_eq_true h
    rw [if_pos h, List.filter_cons_of_pos hk]
    rfl
  · have hk : ¬ log.keeps event.shown = true := fun hk ↦ h (of_decide_eq_true hk)
    rw [if_neg h, List.filter_cons_of_neg hk]
    rfl

end Grows

end Log

namespace Computer

variable {c : Computer} {n : Nat}

/-- The record of the next instruction, if it can be fetched: the machine and the name of the
instruction. -/
def traced? (c : Computer) : Option (Level × String) :=
  c.machine.fetch.toOption.map fun (i, f) ↦
    (.trace, c.machine.shown ++ " " ++ i.name f.operands)

def traces (es : List Computer) : List (Level × String) :=
  es.filterMap traced?

/-- The record that closes the log of a run. -/
def closing (outcome : Outcome Nat) : List (Level × String) :=
  match outcome.result with
  | .ok steps => [(.info, s!"halted after {steps} steps")]
  | .error (.stepLimitExceeded limit) =>
    let pc := Numeral.hexadecimal outcome.computer.machine.pc
    [(.warn, s!"stopping at pc {pc} after {limit} steps")]
  | .error _ => []

theorem traces_append (es fs : List Computer) : traces (es ++ fs) = traces es ++ traces fs :=
  List.filterMap_append

theorem traces_singleton (e : Computer) : traces [e] = e.traced?.toList := by
  rw [traces, List.filterMap_cons]
  cases e.traced? <;> rfl

theorem traced?_of_fetch {i : Instruction} {f : Fetched} (h : c.machine.fetch = .ok (i, f)) :
    c.traced? = some (Event.executing c.machine).shown := by
  rw [traced?, h, Event.shown, Machine.message_of_fetch h, Machine.traceLine_eq_shown]
  rfl

theorem traced?_of_fetch_error {fault : Fault} (h : c.machine.fetch = .error fault) :
    c.traced? = none := by
  rw [traced?, h]
  rfl

/-- The step lemma: the log is told of the instruction that is fetched, and of nothing else. -/
theorem grows_step (c : Computer) : c.log.Grows c.step.computer.log c.traced?.toList := by
  rw [c.log_step]
  cases h : c.machine.fetch with
  | error fault =>
    rw [traced?_of_fetch_error h]
    exact .refl c.log
  | ok x =>
    obtain ⟨i, f⟩ := x
    rw [traced?_of_fetch h]
    exact .record c.log (.executing c.machine)

/-- The run lemma, by induction on the number of steps. -/
theorem grows_after (c : Computer) (n : Nat) :
    c.log.Grows (c.after n).log (traces ((List.range n).map c.after)) := by
  induction n with
  | zero => exact .refl c.log
  | succ n ih =>
    rw [List.range_succ, List.map_append, traces_append, List.map_singleton, traces_singleton,
      after_succ]
    exact ih.trans (c.after n).grows_step

theorem grows_of_ends {outcome : Outcome Nat} (h : Ends c outcome) :
    c.log.Grows outcome.computer.log (traces (c.tried .run) ++ closing outcome) := by
  cases h with
  | halt n h hl ha =>
    rw [tried_of_stop h hl (by rw [ha]; nofun)]
    exact (c.grows_after (n + 1)).trans (.record _ (.halted (n + 1)))
  | error n fault h hl ha =>
    have hnone : closing ⟨.error fault, (c.after (n + 1)).stop⟩ = [] := by
      cases fault with
      | stepLimitExceeded limit => exact absurd ha (c.answer_ne_stepLimitExceeded n limit)
      | _ => rfl
    rw [tried_of_stop h hl (by rw [ha]; nofun), hnone, List.append_nil]
    exact c.grows_after (n + 1)
  | limit limit hl h =>
    rw [tried_of_limit hl h]
    exact (c.grows_after limit).trans (.record _ (.stopping (c.after limit).machine.pc limit))

def Fetches (c : Computer) (n : Nat) : Prop :=
  ∀ k < n, ∃ i f, (c.after k).machine.fetch = .ok (i, f)

theorem fetches_of_goesOn (h : c.GoesOn n) : c.Fetches n := by
  intro k hk
  obtain ⟨i, f, hf, -⟩ := executed?_of_result (h k hk)
  exact ⟨i, f, hf⟩

theorem traces_of_fetches (h : c.Fetches n) :
    (traces ((List.range n).map c.after)).length = n ∧
      ∀ k < n, (traces ((List.range n).map c.after))[k]? = (c.after k).traced? := by
  induction n with
  | zero => exact ⟨rfl, nofun⟩
  | succ n ih =>
    obtain ⟨hlength, hget⟩ := ih fun k hk ↦ h k (Nat.lt_succ_of_lt hk)
    obtain ⟨i, f, hf⟩ := h n (Nat.lt_succ_self n)
    rw [List.range_succ, List.map_append, traces_append, List.map_singleton, traces_singleton,
      traced?_of_fetch hf, Option.toList_some]
    refine ⟨by rw [List.length_append, hlength]; rfl, fun k hk ↦ ?_⟩
    obtain hk | rfl := Nat.lt_succ_iff_lt_or_eq.mp hk
    · rw [List.getElem?_append_left (hlength.symm ▸ hk), hget k hk]
    · rw [List.getElem?_append_right (Nat.le_of_eq hlength), hlength, Nat.sub_self,
        traced?_of_fetch hf]
      rfl

theorem fetches_of_stop (h : c.GoesOn n) (hl : ∀ limit ∈ c.stepLimit, n < limit)
    (ha : c.answer n ≠ .ok true) :
    c.Fetches (if (c.after n).machine.fetch.isOk then n + 1 else n) ∧
      traces (c.tried .run) = traces ((List.range
        (if (c.after n).machine.fetch.isOk then n + 1 else n)).map c.after) := by
  rw [tried_of_stop h hl ha]
  cases hf : (c.after n).machine.fetch with
  | error fault =>
    refine ⟨fetches_of_goesOn h, ?_⟩
    rw [List.range_succ, List.map_append, traces_append, List.map_singleton, traces_singleton,
      traced?_of_fetch_error hf]
    exact List.append_nil _
  | ok x =>
    obtain ⟨i, f⟩ := x
    refine ⟨fun k hk ↦ ?_, rfl⟩
    obtain hk | rfl := Nat.lt_succ_iff_lt_or_eq.mp hk
    · exact fetches_of_goesOn h k hk
    · exact ⟨i, f, hf⟩

theorem exists_fetches_of_ends {outcome : Outcome Nat} (h : Ends c outcome) :
    ∃ t, c.Fetches t ∧ traces (c.tried .run) = traces ((List.range t).map c.after) ∧
      (∀ steps, outcome.result = .ok steps → t = steps) ∧
      (∀ limit, outcome.result = .error (.stepLimitExceeded limit) → t = limit) ∧
      ∀ fault, outcome.result = .error fault → (∀ limit, fault ≠ .stepLimitExceeded limit) →
        ∃ k, c.GoesOn k ∧ c.answer k = .error fault ∧
          t = if (c.after k).machine.fetch.isOk then k + 1 else k := by
  cases h with
  | halt n h hl ha =>
    obtain ⟨hfetches, ht⟩ := fetches_of_stop h hl (by rw [ha]; nofun)
    obtain ⟨i, f, hf, -⟩ := executed?_of_result ha
    rw [hf] at hfetches ht
    refine ⟨n + 1, hfetches, ht, fun steps hs ↦ ?_, nofun, nofun⟩
    exact Except.ok.inj hs
  | error n fault h hl ha =>
    obtain ⟨hfetches, ht⟩ := fetches_of_stop h hl (by rw [ha]; nofun)
    refine ⟨_, hfetches, ht, nofun, fun limit hr ↦ ?_, fun other hr _ ↦ ?_⟩
    · cases hr
      exact absurd ha (c.answer_ne_stepLimitExceeded n limit)
    · cases hr
      exact ⟨n, h, ha, rfl⟩
  | limit limit hl h =>
    refine ⟨limit, fetches_of_goesOn h, by rw [tried_of_limit hl h], nofun, fun other hr ↦ ?_,
      fun fault hr hf ↦ ?_⟩
    · cases hr
      rfl
    · cases hr
      exact absurd rfl (hf limit)

/-- The log of a run is faithful. It is told of each instruction that was fetched, in the order of
the steps, with the machine as the step found it, and then of the end of the run, if it halted or
came to its limit. So the traces count the steps of a run that halts or is cut short; where a step
fails, they count it if its instruction could be fetched. -/
theorem run_told {outcome : Outcome Nat} (h : c.run = some outcome) :
    c.log.Grows outcome.computer.log (traces (c.tried .run) ++ closing outcome) ∧
    (∀ k < (traces (c.tried .run)).length,
      (traces (c.tried .run))[k]? = (c.after k).traced?) ∧
    (∀ steps, outcome.result = .ok steps → (traces (c.tried .run)).length = steps) ∧
    (∀ limit, outcome.result = .error (.stepLimitExceeded limit) →
      (traces (c.tried .run)).length = limit) ∧
    ∀ fault, outcome.result = .error fault → (∀ limit, fault ≠ .stepLimitExceeded limit) →
      ∃ k, c.GoesOn k ∧ c.answer k = .error fault ∧
        (traces (c.tried .run)).length =
          if (c.after k).machine.fetch.isOk then k + 1 else k := by
  have he := ends_of_run h
  obtain ⟨t, hf, ht, hcount⟩ := exists_fetches_of_ends he
  obtain ⟨hlength, hget⟩ := traces_of_fetches hf
  rw [← ht] at hlength hget
  rw [hlength]
  exact ⟨grows_of_ends he, hget, hcount⟩

def loading (i : Instruction) : Computer :=
  { new {} (.values #[]) ⟨.trace, #[]⟩ with
    machine := { Machine.initial Registers.defaultTop with
      memory := ((Memory.blank.set 0 0x82).set 2 8).set 3 i.opcode } }

theorem run_told_loading :
    (∃ d, (loading .halt).run = some ⟨.ok 2, d⟩ ∧ d.log.shown =
      [(.trace, "TRACE: 00 | 82 00 08 | 00 00 00 00 00 00 00 F4 LDI R0,8"),
        (.trace, "TRACE: 03 | 01 00 00 | 08 00 00 00 00 00 00 F4 HLT"),
        (.info, "halted after 2 steps")]) ∧
    ∃ d, (loading .call).run = some ⟨.error (.unknownOpcode 0 8), d⟩ ∧ d.log.shown =
      [(.trace, "TRACE: 00 | 82 00 08 | 00 00 00 00 00 00 00 F4 LDI R0,8"),
        (.trace, "TRACE: 03 | 50 00 00 | 08 00 00 00 00 00 00 F4 CALL R0")] := by
  have hhalt : (loading .halt).run.map (·.result) = some (.ok 2) := by decide +kernel
  have hcall : (loading .call).run.map (·.result) = some (.error (.unknownOpcode 0 8)) := by
    decide +kernel
  have hhalted : traces ((loading .halt).tried .run) =
      [(.trace, "TRACE: 00 | 82 00 08 | 00 00 00 00 00 00 00 F4 LDI R0,8"),
        (.trace, "TRACE: 03 | 01 00 00 | 08 00 00 00 00 00 00 F4 HLT")] := by decide +kernel
  have hcalled : traces ((loading .call).tried .run) =
      [(.trace, "TRACE: 00 | 82 00 08 | 00 00 00 00 00 00 00 F4 LDI R0,8"),
        (.trace, "TRACE: 03 | 50 00 00 | 08 00 00 00 00 00 00 F4 CALL R0")] := by decide +kernel
  refine ⟨?_, ?_⟩
  · obtain ⟨⟨result, d⟩, hr, rfl⟩ := Option.map_eq_some_iff.mp hhalt
    obtain ⟨hg, -⟩ := run_told hr
    rw [hhalted] at hg
    exact ⟨d, hr, hg.shown⟩
  · obtain ⟨⟨result, d⟩, hr, rfl⟩ := Option.map_eq_some_iff.mp hcall
    obtain ⟨hg, -⟩ := run_told hr
    rw [hcalled] at hg
    exact ⟨d, hr, hg.shown⟩

end Computer

end ByteMachine
