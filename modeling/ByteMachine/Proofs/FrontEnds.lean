import ByteMachine.Proofs.Reports

namespace ByteMachine

namespace Computer

theorem loadFrom_congr {first second : Source} (c : Computer)
    (h : second.image c.machine.memory = first.image c.machine.memory) :
    (c.loadFrom second).result = (c.loadFrom first).result ∧
      ∃ log, (c.loadFrom second).computer = { (c.loadFrom first).computer with log } := by
  obtain ⟨_, hfirst⟩ := c.loadFrom_eq first
  obtain ⟨log, hsecond⟩ := c.loadFrom_eq second
  rw [hfirst, hsecond, h]
  cases first.image c.machine.memory with
  | error fault => exact ⟨rfl, log, rfl⟩
  | ok memory => exact ⟨rfl, log, rfl⟩

end Computer

namespace CommandLine

/-- The arguments are accepted, and the file that they name holds a text, which is assembled or is
read as a listing. -/
structure Selects (arguments : List String) (files : String → Except ReadFailure (List Char))
    (assembly : Bool) (text : List Char) (options : Options) : Prop where
  read : Options.read arguments = .ok options
  format : options.readsAssembly = assembly
  file : files options.program = .ok text

/-- Reports that differ in their events at most. Both have the lines of one profile, or neither has
such lines. -/
structure Report.Matches (counted : Prop) (r r' : Report) : Prop where
  alike : r.Alike r'
  profile : ∃ profile? : Option Profile,
    (profile?.isSome ↔ counted) ∧ r.Tells profile? ∧ r'.Tells profile?

variable {options options' : Options} {r r' : Report}

theorem Tallies.tells {is : List Instruction} (h : Tallies options is r) :
    r.Tells (if options.profile then some (Profile.empty.records is) else none) := by
  obtain ⟨events, lines, hd, hl⟩ := h
  refine ⟨events, hd.trans (congrArg (events.map eventLine ++ ·) ?_)⟩
  cases hp : options.profile with
  | false =>
    rw [hp] at hl
    exact hl
  | true =>
    rw [hp] at hl
    obtain ⟨htotal, hcount⟩ := Profile.adds_empty (Profile.empty.adds_records is)
    exact hl.unique (enumerates_profileLines htotal hcount)

theorem Selects.invoke_eq {arguments : List String}
    {files : String → Except ReadFailure (List Char)} {assembly : Bool} {text : List Char}
    (h : Selects arguments files assembly text options) :
    invoke arguments files = .ok (execute options (.ok text)) := by
  rw [invoke_of_read h.read, h.file]

theorem execute_of_decode {source listing : List Char} {code : List UInt8}
    (h : options.decode source = .ok code) (h' : options'.decode listing = .ok code)
    (hm : options'.maxSteps = options.maxSteps) (hs : options'.stackTop = options.stackTop)
    (hp : options'.profile = options.profile) :
    Option.Rel (Report.Matches (options.profile ∧ code.length ≤ 256))
      (execute options (.ok source)) (execute options' (.ok listing)) := by
  by_cases hlarge : 256 < code.length
  · obtain ⟨r, he, hr⟩ := execute_of_large h hlarge
    obtain ⟨r', he', hr'⟩ := execute_of_large h' hlarge
    have hnot : ¬ (options.profile ∧ code.length ≤ 256) := fun hn ↦ Nat.not_le.mpr hlarge hn.2
    rw [he, he']
    exact .some ⟨hr.alike hr', none, iff_of_false Bool.false_ne_true hnot, hr.diagnostics,
      hr'.diagnostics⟩
  · have hle := Nat.not_lt.mp hlarge
    obtain ⟨c, hl, he⟩ := execute_of_code h hle
    obtain ⟨c', hl', he'⟩ := execute_of_code h' hle
    rw [he, he']
    refine rel_imp (report_of_loads hl hl' hs hm) fun r r' hr ↦ ?_
    obtain ⟨halike, is, ht, ht'⟩ := hr
    have htells' := ht'.tells
    rw [hp] at htells'
    refine ⟨halike, _, ?_, ht.tells, htells'⟩
    rw [and_iff_left hle]
    cases options.profile <;> simp

/-- Assembled code and a listing of it run alike. For every text that can be assembled, and however
its code is written as a listing, the command line run on the text and on the listing, with the same
limit, the same stack and the same profile, shows the same status, the same output, the same chain
of messages and the same lines of a profile, or neither run ends. And each of the two, when it is
loaded into a computer, is answered alike and leaves the same computer. -/
theorem assembly_listing_alike {source listing : List Char} {code : List UInt8}
    (h : assemble source = .ok code) (hw : Listing.Written code listing) :
    (∀ arguments arguments' files files' options options',
      Selects arguments files true source options →
      Selects arguments' files' false listing options' →
      options'.maxSteps = options.maxSteps → options'.stackTop = options.stackTop →
      options'.profile = options.profile →
      ∃ report? report'?, invoke arguments files = .ok report? ∧
        invoke arguments' files' = .ok report'? ∧
        Option.Rel (Report.Matches (options.profile ∧ code.length ≤ 256)) report? report'?) ∧
    ∀ c : Computer,
      (c.loadFrom (.listing listing)).result = (c.loadFrom (.assembly source)).result ∧
        ∃ log, (c.loadFrom (.listing listing)).computer =
          { (c.loadFrom (.assembly source)).computer with log } := by
  have hread := Listing.read_of_written hw
  constructor
  · intro arguments arguments' files files' options options' hs hs' hm ht hp
    have hdecode : options.decode source = .ok code := by
      rw [Options.decode, if_pos hs.format, h]
    have hdecode' : options'.decode listing = .ok code := by
      rw [Options.decode, if_neg (Bool.eq_false_iff.mp hs'.format), hread]
    exact ⟨_, _, hs.invoke_eq, hs'.invoke_eq, execute_of_decode hdecode hdecode' hm ht hp⟩
  · intro c
    refine c.loadFrom_congr ?_
    simp only [Source.image, Source.program, Listing.load, hread, h]

/-- A listing with a remark and an empty line, and the text of the same code. -/
theorem assembly_listing_alike_print :
    ∃ r r', Listing.Written [0x47, 7, 1] "01000111 # PRN\n00000111\n\n00000001".toList ∧
      invoke ["--profile", "p.asm"] (fun _ ↦ .ok "PRN R7\nHLT".toList) = .ok (some r) ∧
      invoke ["--profile", "p.ls8"]
        (fun _ ↦ .ok "01000111 # PRN\n00000111\n\n00000001".toList) = .ok (some r') ∧
      r.output = "244\n" ∧ r.Matches (true ∧ [0x47, 7, (1 : UInt8)].length ≤ 256) r' := by
  have h : assemble "PRN R7\nHLT".toList = .ok [0x47, 7, 1] := by rfl
  have hfirst : Listing.LineWritten (some 0x47) "01000111 # PRN".toList :=
    @Listing.LineWritten.line (some 0x47) [] [' '] _ .nil (by decide) (.some (by decide))
  have hline (byte? : Option UInt8) : Listing.LineWritten byte? (Listing.digits byte?) := by
    simpa using @Listing.LineWritten.line byte? [] [] [] .nil .nil .none
  have hw : Listing.Written [0x47, 7, 1] "01000111 # PRN\n00000111\n\n00000001".toList :=
    .line hfirst .feed (.line (hline (some 7)) .feed
      (.line (hline none) .feed (.last (hline (some 1)))))
  have hs : Selects ["--profile", "p.asm"] (fun _ ↦ .ok "PRN R7\nHLT".toList) true
      "PRN R7\nHLT".toList ⟨"p.asm", false, none, 0xf4, true, .warn⟩ :=
    ⟨by rfl, by decide +kernel, rfl⟩
  have hs' : Selects ["--profile", "p.ls8"]
      (fun _ ↦ .ok "01000111 # PRN\n00000111\n\n00000001".toList) false
      "01000111 # PRN\n00000111\n\n00000001".toList ⟨"p.ls8", false, none, 0xf4, true, .warn⟩ :=
    ⟨by rfl, by decide +kernel, rfl⟩
  obtain ⟨halike, -⟩ := assembly_listing_alike h hw
  obtain ⟨report?, report'?, hr, hr', hrel⟩ := halike _ _ _ _ _ _ hs hs' rfl rfl rfl
  have houtput : report?.map Report.output = some "244\n" := by
    rw [← Except.ok.inj (hs.invoke_eq.symm.trans hr)]
    decide +kernel
  cases hrel with
  | none => cases houtput
  | @some r r' hmatches => exact ⟨r, r', hw, hr, hr', Option.some.inj houtput, hmatches⟩

end CommandLine

end ByteMachine
