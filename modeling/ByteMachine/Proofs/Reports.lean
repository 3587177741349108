import ByteMachine.Proofs.AssemblyErrors
import ByteMachine.Proofs.LimitedOutput
import ByteMachine.Proofs.Listings
import ByteMachine.Proofs.Observers
import ByteMachine.Proofs.ProfileLines
import ByteMachine.Proofs.Profiles
import ByteMachine.Proofs.Slices

namespace ByteMachine

namespace Computer

variable {c d : Computer}

theorem executed_of_forall₂ {es fs : List Computer} (h : List.Forall₂ Watched es fs) :
    executed fs = executed es := by
  induction h with
  | nil => rfl
  | cons hw _ ih =>
    rw [executed_cons, executed_cons, ih,
      executed?_congr hw.machine (simulation_watched.step hw trivial).1]

/-- Runs of computers that differ in what watches them end alike, or neither ends. -/
theorem Watched.run (h : Watched c d) :
    Option.Rel (fun o p ↦ p.result = o.result ∧
      printed (d.tried .run) = printed (c.tried .run) ∧
      executed (d.tried .run) = executed (c.tried .run)) c.run d.run := by
  cases hc : c.run with
  | some o =>
    obtain ⟨p, hp, hresult, -, ht⟩ := simulation_watched.ends h (ends_of_run hc) fun _ _ ↦ trivial
    rw [run_of_ends hp]
    exact .some ⟨hresult, printed_of_forall₂ ht, executed_of_forall₂ ht⟩
  | none =>
    cases hd : d.run with
    | none => exact .none
    | some p =>
      obtain ⟨o, ho, -⟩ := simulation_watched.ends h.symm (ends_of_run hd) fun _ _ ↦ trivial
      cases hc.symm.trans (run_of_ends ho)

end Computer

namespace CommandLine

open Computer

/-- What a run of the program goes by: the arguments, and the file that they name. -/
def invoke (arguments : List String) (files : String → Except ReadFailure (List Char)) :
    Except Refusal (Option Report) :=
  (Options.read arguments).map fun options ↦ execute options (files options.program)

namespace Options

def readsAssembly (options : Options) : Bool :=
  options.assembly || isAssemblyPath options.program

def decode (options : Options) (text : List Char) : Except ProgramError (List UInt8) :=
  if options.readsAssembly then assemble text else Listing.read text

def notLoaded (options : Options) : String :=
  s!"failed to load program {options.program}"

/-- Why a file could not be read; the assembler does not say that it was the program. -/
def unreadable (options : Options) (failure : ReadFailure) : List String :=
  if options.readsAssembly then [failure.message] else ["failed to read program", failure.message]

def Loads (options : Options) (code : List UInt8) (c : Computer) : Prop :=
  ∃ log, (newComputer options log).load code = .ok c

end Options

/-- The diagnostics are events, and behind them the lines of a profile, if there is one. -/
def Report.Tells (r : Report) (profile? : Option Profile) : Prop :=
  ∃ events : List Event,
    r.diagnostics = events.map eventLine ++ (profile?.map profileLines).getD []

/-- Nothing was run, and the chain says why. -/
structure Refused (chain : List String) (r : Report) : Prop where
  status : r.status = 1
  output : r.output = ""
  chain : r.chain = chain
  diagnostics : r.Tells none

/-- What was printed is shown, and how the run ended. -/
structure Shows (c : Computer) (result : Except Fault Nat) (r : Report) : Prop where
  output : r.output = String.ofList (Output.written (printed (c.tried .run)))
  ok : ∀ steps, result = .ok steps → r.status = 0 ∧ r.chain = []
  error : ∀ fault, result = .error fault →
    r.status = 1 ∧ r.chain = ["execution failed", fault.message]

/-- If that is asked for, lines behind the events tell how often each instruction was carried
out. -/
def Tallies (options : Options) (is : List Instruction) (r : Report) : Prop :=
  ∃ (events : List Event) (lines : List String),
    r.diagnostics = events.map eventLine ++ lines ∧
      if options.profile then Enumerates is lines else lines = []

/-- What there is to report, if anything, for a file. -/
inductive Reports (options : Options) : Except ReadFailure (List Char) → Option Report → Prop
  | unreadable {failure : ReadFailure} {r : Report}
      (hr : Refused (options.notLoaded :: options.unreadable failure) r) :
      Reports options (.error failure) (some r)
  | malformed {text : List Char} {e : ProgramError} {r : Report}
      (hc : options.decode text = .error e) (hr : Refused [options.notLoaded, e.message] r) :
      Reports options (.ok text) (some r)
  | large {text : List Char} {code : List UInt8} {r : Report}
      (hc : options.decode text = .ok code) (hl : 256 < code.length)
      (hr : Refused [(ProgramError.programTooLarge code.length).message] r) :
      Reports options (.ok text) (some r)
  | endless {text : List Char} {code : List UInt8} {c : Computer}
      (hc : options.decode text = .ok code) (hl : options.Loads code c) (hn : c.run = none) :
      Reports options (.ok text) none
  | ended {text : List Char} {code : List UInt8} {c d : Computer} {result : Except Fault Nat}
      {r : Report} (hc : options.decode text = .ok code) (hl : options.Loads code c)
      (hrun : c.run = some ⟨result, d⟩) (hs : Shows c result r)
      (ht : Tallies options (executed (c.tried .run)) r) : Reports options (.ok text) (some r)

variable {options : Options} {text : List Char}

theorem chain_of_decode {e : ProgramError} (h : options.decode text = .error e) :
    e.chain = [e.message] := by
  rw [Options.decode] at h
  split at h
  · cases Assembly.located_of_assemble h <;> rfl
  · obtain ⟨line, text, rfl⟩ := Listing.error_of_read h
    rfl

theorem loadProgram_ok (options : Options) (text : List Char) (log : Log) :
    ∃ after, loadProgram options (.ok text) log =
      ((options.decode text).mapError ProgramError.chain, after) := by
  rw [loadProgram, Options.decode, Options.readsAssembly]
  split
  · exact ⟨log, rfl⟩
  · rw [Listing.loadFile, Listing.load]
    cases Listing.read text with
    | ok code => exact ⟨_, rfl⟩
    | error e => exact ⟨log, rfl⟩

theorem loadProgram_error (options : Options) (failure : ReadFailure) (log : Log) :
    loadProgram options (.error failure) log = (.error (options.unreadable failure), log) := by
  rw [loadProgram, Options.unreadable, Options.readsAssembly]
  split <;> rfl

theorem execute_of_unreadable (options : Options) (failure : ReadFailure) :
    ∃ r, execute options (.error failure) = some r ∧
      Refused (options.notLoaded :: options.unreadable failure) r := by
  rw [execute, prepare, loadProgram_error]
  exact ⟨_, rfl, rfl, rfl, rfl, _, (List.append_nil _).symm⟩

theorem execute_of_error {e : ProgramError} (h : options.decode text = .error e) :
    ∃ r, execute options (.ok text) = some r ∧ Refused [options.notLoaded, e.message] r := by
  obtain ⟨log, hl⟩ := loadProgram_ok options text { threshold := options.level }
  rw [execute, prepare, hl, h, ← chain_of_decode h]
  exact ⟨_, rfl, rfl, rfl, rfl, _, (List.append_nil _).symm⟩

theorem execute_of_large {code : List UInt8} (h : options.decode text = .ok code)
    (hl : 256 < code.length) :
    ∃ r, execute options (.ok text) = some r ∧
      Refused [(ProgramError.programTooLarge code.length).message] r := by
  obtain ⟨log, hp⟩ := loadProgram_ok options text { threshold := options.level }
  have hload : (newComputer options log).load code =
      .error (.load (.programTooLarge code.length)) := by
    rw [load, Memory.load, if_neg (Nat.not_le.mpr hl)]
    rfl
  rw [execute, prepare, hp, h]
  simp only [Except.mapError, hload]
  exact ⟨_, rfl, rfl, rfl, rfl, _, (List.append_nil _).symm⟩

theorem execute_of_code {code : List UInt8} (h : options.decode text = .ok code)
    (hl : code.length ≤ 256) :
    ∃ c, options.Loads code c ∧ execute options (.ok text) = c.run.map report := by
  obtain ⟨log, hp⟩ := loadProgram_ok options text { threshold := options.level }
  have hload : ∃ c, (newComputer options log).load code = .ok c := by
    rw [load, Memory.load, if_pos hl]
    exact ⟨_, rfl⟩
  obtain ⟨c, hc⟩ := hload
  refine ⟨c, ⟨log, hc⟩, ?_⟩
  rw [execute, prepare, hp, h]
  simp only [Except.mapError, hc]

section

variable {options' : Options} {code : List UInt8} {c c' d : Computer}
  {result : Except Fault Nat}

theorem report_output (outcome : Outcome Nat) :
    (report outcome).output = outcome.computer.output.text := by
  obtain ⟨_ | _, d⟩ := outcome <;> rfl

theorem report_diagnostics (outcome : Outcome Nat) :
    (report outcome).diagnostics = outcome.computer.log.events.toList.map eventLine ++
      (outcome.computer.profile.map profileLines).getD [] := by
  obtain ⟨_ | _, d⟩ := outcome <;> rfl

theorem evidence_of_loads (h : options.Loads code c) :
    c.evidence = ⟨if options.profile then some .empty else none, .lines "" none⟩ := by
  obtain ⟨log, h⟩ := h
  obtain ⟨memory, -, h⟩ := bind_eq_ok_iff.mp h
  cases h
  rfl

theorem watched_of_loads (h : options.Loads code c) (h' : options'.Loads code c')
    (hs : options'.stackTop = options.stackTop) (hm : options'.maxSteps = options.maxSteps) :
    Watched c c' := by
  obtain ⟨log, h⟩ := h
  obtain ⟨memory, hload, h⟩ := bind_eq_ok_iff.mp h
  obtain ⟨log', h'⟩ := h'
  obtain ⟨memory', hload', h'⟩ := bind_eq_ok_iff.mp h'
  cases h
  cases h'
  obtain rfl : memory = memory' := Except.ok.inj (hload.symm.trans hload')
  have hmachine : ({ Machine.initial options'.stackTop with memory } : Machine) =
      { Machine.initial options.stackTop with memory } := by rw [hs]
  exact ⟨hmachine, hm, Output.neverFails_lines "", Output.neverFails_lines ""⟩

theorem shows_report (h : options.Loads code c) (hrun : c.run = some ⟨result, d⟩) :
    Shows c result (report ⟨result, d⟩) := by
  refine ⟨?_, ?_, ?_⟩
  · have ho : d.output = c.evidence.output.offers (printed (c.tried .run)) :=
      (trail_of_ends (ends_of_run hrun)).output
    rw [report_output, ho, evidence_of_loads h, Output.offers_unlimited]
    exact String.empty_append
  · rintro steps rfl
    exact ⟨rfl, rfl⟩
  · rintro fault rfl
    exact ⟨rfl, rfl⟩

theorem tallies_report (h : options.Loads code c) (hrun : c.run = some ⟨result, d⟩) :
    Tallies options (executed (c.tried .run)) (report ⟨result, d⟩) := by
  have hprofile : d.profile = c.evidence.profile.map (·.records (executed (c.tried .run))) :=
    (trail_of_ends (ends_of_run hrun)).profile
  obtain ⟨htotal, hcount⟩ :=
    Profile.adds_empty (Profile.empty.adds_records (executed (c.tried .run)))
  refine ⟨_, _, report_diagnostics _, ?_⟩
  rw [evidence_of_loads h] at hprofile
  rw [hprofile]
  cases options.profile with
  | false => exact rfl
  | true => exact enumerates_profileLines htotal hcount

theorem reports_execute (options : Options) (file : Except ReadFailure (List Char)) :
    Reports options file (execute options file) := by
  rcases file with failure | text
  · obtain ⟨r, he, hr⟩ := execute_of_unreadable options failure
    rw [he]
    exact .unreadable hr
  · cases hc : options.decode text with
    | error e =>
      obtain ⟨r, he, hr⟩ := execute_of_error hc
      rw [he]
      exact .malformed hc hr
    | ok code =>
      by_cases hlarge : 256 < code.length
      · obtain ⟨r, he, hr⟩ := execute_of_large hc hlarge
        rw [he]
        exact .large hc hlarge hr
      · obtain ⟨c, hl, he⟩ := execute_of_code hc (Nat.not_lt.mp hlarge)
        rw [he]
        cases hrun : c.run with
        | none => exact .endless hc hl hrun
        | some outcome => exact .ended hc hl hrun (shows_report hl hrun) (tallies_report hl hrun)

structure Report.Alike (r r' : Report) : Prop where
  status : r'.status = r.status
  output : r'.output = r.output
  chain : r'.chain = r.chain

theorem Refused.alike {chain : List String} {r r' : Report} (h : Refused chain r)
    (h' : Refused chain r') : r.Alike r' :=
  ⟨h'.status.trans h.status.symm, h'.output.trans h.output.symm, h'.chain.trans h.chain.symm⟩

theorem Shows.alike {r r' : Report} (h : Shows c result r) (h' : Shows c' result r')
    (hp : printed (c'.tried .run) = printed (c.tried .run)) : r.Alike r' := by
  have ho : r'.output = r.output := by rw [h.output, h'.output, hp]
  cases result with
  | ok steps =>
    obtain ⟨hs, hc⟩ := h.ok steps rfl
    obtain ⟨hs', hc'⟩ := h'.ok steps rfl
    exact ⟨hs'.trans hs.symm, ho, hc'.trans hc.symm⟩
  | error fault =>
    obtain ⟨hs, hc⟩ := h.error fault rfl
    obtain ⟨hs', hc'⟩ := h'.error fault rfl
    exact ⟨hs'.trans hs.symm, ho, hc'.trans hc.symm⟩

theorem report_of_loads (h : options.Loads code c) (h' : options'.Loads code c')
    (hs : options'.stackTop = options.stackTop) (hm : options'.maxSteps = options.maxSteps) :
    Option.Rel (fun r r' ↦ r.Alike r' ∧ ∃ is, Tallies options is r ∧ Tallies options' is r')
      (c.run.map report) (c'.run.map report) := by
  refine rel_map (watched_of_loads h h' hs hm).run fun o p ho hp hsame ↦ ?_
  obtain ⟨hresult, hprinted, hexecuted⟩ := hsame
  have htallies' : Tallies options' (executed (c'.tried .run)) (report p) := tallies_report h' hp
  rw [hexecuted] at htallies'
  have hshows' : Shows c' p.result (report p) := shows_report h' hp
  rw [hresult] at hshows'
  exact ⟨(shows_report h ho).alike hshows' hprinted, _, tallies_report h ho, htallies'⟩

theorem decode_congr (hp : options'.program = options.program)
    (ha : options'.assembly = options.assembly) : options'.decode = options.decode := by
  funext text
  rw [Options.decode, Options.decode, Options.readsAssembly, Options.readsAssembly, hp, ha]

/-- What is told on the side does not matter. -/
theorem execute_alike (hp : options'.program = options.program)
    (ha : options'.assembly = options.assembly) (hm : options'.maxSteps = options.maxSteps)
    (hs : options'.stackTop = options.stackTop) (file : Except ReadFailure (List Char)) :
    Option.Rel Report.Alike (execute options file) (execute options' file) := by
  have hn : options'.notLoaded = options.notLoaded :=
    congrArg (fun program ↦ s!"failed to load program {program}") hp
  have hd := decode_congr hp ha
  rcases file with failure | text
  · have hu : options'.unreadable failure = options.unreadable failure := by
      rw [Options.unreadable, Options.unreadable, Options.readsAssembly, Options.readsAssembly, hp,
        ha]
    obtain ⟨r, he, hr⟩ := execute_of_unreadable options failure
    obtain ⟨r', he', hr'⟩ := execute_of_unreadable options' failure
    rw [hn, hu] at hr'
    rw [he, he']
    exact .some (hr.alike hr')
  · cases hc : options.decode text with
    | error e =>
      obtain ⟨r, he, hr⟩ := execute_of_error hc
      obtain ⟨r', he', hr'⟩ := execute_of_error (hd ▸ hc : options'.decode text = .error e)
      rw [hn] at hr'
      rw [he, he']
      exact .some (hr.alike hr')
    | ok code =>
      have hc' : options'.decode text = .ok code := hd ▸ hc
      by_cases hlarge : 256 < code.length
      · obtain ⟨r, he, hr⟩ := execute_of_large hc hlarge
        obtain ⟨r', he', hr'⟩ := execute_of_large hc' hlarge
        rw [he, he']
        exact .some (hr.alike hr')
      · obtain ⟨c, hl, he⟩ := execute_of_code hc (Nat.not_lt.mp hlarge)
        obtain ⟨c', hl', he'⟩ := execute_of_code hc' (Nat.not_lt.mp hlarge)
        rw [he, he']
        exact rel_imp (report_of_loads hl hl' hs hm) fun _ _ h ↦ h.1

/-- The file holds a program that fits in memory, and its run halts. -/
def Succeeds (options : Options) (file : Except ReadFailure (List Char)) : Prop :=
  ∃ text code c steps d, file = .ok text ∧ options.decode text = .ok code ∧ code.length ≤ 256 ∧
    options.Loads code c ∧ c.run = some ⟨.ok steps, d⟩

theorem length_of_loads (h : options.Loads code c) : code.length ≤ 256 := by
  obtain ⟨log, h⟩ := h
  obtain ⟨memory, hm, -⟩ := bind_eq_ok_iff.mp h
  by_contra hn
  rw [Memory.load, if_neg hn] at hm
  cases hm

theorem result_of_loads {result' : Except Fault Nat} {d' : Computer} (h : options.Loads code c)
    (h' : options.Loads code c') (hrun : c.run = some ⟨result, d⟩)
    (hrun' : c'.run = some ⟨result', d'⟩) : result' = result := by
  have hrel := (watched_of_loads h h' rfl rfl).run
  rw [hrun, hrun'] at hrel
  cases hrel with
  | some h => exact h.1

/-- What is tallied is what a computer carries out that the code was loaded into, whatever its log.
-/
theorem Reports.tallies {r : Report} (h : Reports options (.ok text) (some r))
    (hc : options.decode text = .ok code) (hl : options.Loads code c) :
    Tallies options (executed (c.tried .run)) r := by
  cases h with
  | malformed he => cases hc.symm.trans he
  | large hc' hlarge =>
    cases hc.symm.trans hc'
    exact absurd (length_of_loads hl) (Nat.not_le.mpr hlarge)
  | ended hc' hl' hrun _ ht =>
    cases hc.symm.trans hc'
    have hrel := (watched_of_loads hl' hl rfl rfl).run
    rw [hrun] at hrel
    generalize c.run = run? at hrel
    cases hrel with
    | some hsame =>
      rw [hsame.2.2]
      exact ht

theorem Refused.status_chain {chain : List String} {r : Report} (h : Refused chain r)
    (hn : chain ≠ []) : r.status = 1 ∧ r.chain ≠ [] :=
  ⟨h.status, h.chain.symm ▸ hn⟩

/-- The status tells whether there was a chain of messages, and so whether all went well. -/
theorem status_of_reports {file : Except ReadFailure (List Char)} {r : Report}
    (h : Reports options file (some r)) :
    Succeeds options file ∧ r.status = 0 ∧ r.chain = [] ∨
      ¬ Succeeds options file ∧ r.status = 1 ∧ r.chain ≠ [] := by
  cases h with
  | unreadable hr =>
    refine .inr ⟨?_, hr.status_chain (List.cons_ne_nil _ _)⟩
    rintro ⟨_, _, _, _, _, hf, -⟩
    cases hf
  | malformed hc hr =>
    refine .inr ⟨?_, hr.status_chain (List.cons_ne_nil _ _)⟩
    rintro ⟨_, _, _, _, _, hf, hc', -⟩
    cases hf
    cases hc.symm.trans hc'
  | large hc hl hr =>
    refine .inr ⟨?_, hr.status_chain (List.cons_ne_nil _ _)⟩
    rintro ⟨_, _, _, _, _, hf, hc', hle, -⟩
    cases hf
    cases hc.symm.trans hc'
    exact absurd hle (Nat.not_le.mpr hl)
  | @ended text code c d result r hc hl hrun hs ht =>
    cases result with
    | ok steps =>
      exact .inl ⟨⟨text, code, c, steps, d, rfl, hc, length_of_loads hl, hl, hrun⟩, hs.ok steps rfl⟩
    | error fault =>
      obtain ⟨hstatus, hchain⟩ := hs.error fault rfl
      refine .inr ⟨?_, hstatus, hchain ▸ List.cons_ne_nil _ _⟩
      rintro ⟨_, _, c', steps, d', hf, hc', -, hl', hrun'⟩
      cases hf
      cases hc.symm.trans hc'
      cases result_of_loads hl' hl hrun' hrun

theorem slices_of_prepare {file : Except ReadFailure (List Char)}
    (h : prepare options file = .ok c) :
    (execute options file = none → ∀ fuels, slices fuels 0 c.start = none) ∧
      ∀ r, execute options file = some r →
        ∀ size > 0, ∃ k, slices (List.replicate k size) 0 c.start = some r := by
  rw [execute, h]
  dsimp only
  refine ⟨fun hn ↦ slices_of_endless (Option.map_eq_none_iff.mp hn), fun r hr size hs ↦ ?_⟩
  obtain ⟨outcome, hrun, rfl⟩ := Option.map_eq_some_iff.mp hr
  exact slices_of_run hrun hs

theorem invoke_of_read {arguments : List String} (h : Options.read arguments = .ok options)
    (files : String → Except ReadFailure (List Char)) :
    invoke arguments files = .ok (execute options (files options.program)) := by
  rw [invoke, h]
  rfl

def eight : String → Except ReadFailure (List Char) :=
  fun _ ↦ .ok "LDI R0,8\nPRN R0\nHLT".toList

end

end CommandLine

end ByteMachine
