import ByteMachine.Proofs.AssemblyLayout

namespace ByteMachine.Assembly

open Text Statement

/-- The flaws of a line that the first pass can see, given the labels of the lines before it. One
line may have several. -/
inductive Flaw (earlier : List (List Char)) (number : Nat) (line : List Char) : ProgramError → Prop
  | duplicateLabel {before after : List (List Char)} {name : List Char}
      (hl : (splitLine line).1 = before ++ name :: after) (hb : before.Nodup)
      (he : ∀ label ∈ before, label ∉ earlier) (hm : name ∈ earlier ++ before) :
      Flaw earlier number line (.duplicateLabel number (String.ofList name))
  | unknownMnemonic {text : List Char} (ht : (splitLine line).2 = text) (hne : text ≠ [])
      (hd : Directive.ofWord? (upperWord text) = none) :
      Flaw earlier number line (.unknownMnemonic number (String.ofList (word text)))
  | operandCount {text : List Char} {d : Directive} {found : Nat} (ht : (splitLine line).2 = text)
      (hne : text ≠ []) (hd : Directive.ofWord? (upperWord text) = some d)
      (hf : (tailTexts text).length = found) (hc : found ≠ d.arity found) :
      Flaw earlier number line
        (.operandCount number (String.ofList (upperWord text)) (d.arity found) found)

def rank : ProgramError → Nat
  | .duplicateLabel .. => 0
  | .unknownMnemonic .. => 1
  | .operandCount .. => 2
  | _ => 3

theorem labels_of_reads {line : List Char} {number : Nat} {item : Item}
    (h : Reads (line, number) item) : item.labels = (splitLine line).1 := by
  cases h with
  | bare h => rw [h]
  | statement h => rw [h]

namespace Layout

variable {layout after : Layout} {earlier labels : List (List Char)} {line : List Char}
  {number : Nat} {e : ProgramError}

def Knows (layout : Layout) (earlier : List (List Char)) : Prop :=
  ∀ name, layout.labels.lookup name = none ↔ name ∉ earlier

theorem Knows.fresh_iff (hk : layout.Knows earlier) :
    layout.Fresh labels ↔ labels.Nodup ∧ ∀ name ∈ labels, name ∉ earlier := by
  simp only [Fresh, hk _]

theorem Knows.place (hk : layout.Knows earlier) (item : Item) :
    (layout.place item).Knows (earlier ++ item.labels) := by
  intro name
  rw [lookup_place, List.mem_append, not_or]
  by_cases hm : name ∈ item.labels
  · simp [hm]
  · simp [hm, hk name]

theorem addLabel_eq_error {label : List Char} (h : addLabel number layout label = .error e) :
    layout.labels.lookup label ≠ none ∧ e = .duplicateLabel number (String.ofList label) := by
  rw [addLabel] at h
  cases hl : layout.labels.lookup label with
  | none =>
    rw [hl] at h
    cases h
  | some address =>
    rw [hl] at h
    cases h
    exact ⟨Option.some_ne_none address, rfl⟩

theorem flaw_of_addLabel (hk : layout.Knows earlier)
    (h : (splitLine line).1.foldlM (addLabel number) layout = .error e) :
    Flaw earlier number line e ∧ rank e = 0 := by
  obtain ⟨before, name, after, marked, hl, hb, he⟩ := foldlM_eq_error h
  obtain ⟨hf, rfl⟩ := foldlM_addLabel_eq_ok_iff.mp hb
  obtain ⟨hn, rfl⟩ := addLabel_eq_error he
  obtain ⟨hd, hnot⟩ := hk.fresh_iff.mp hf
  refine ⟨.duplicateLabel hl hd hnot ?_, rfl⟩
  -- The label was found, so it is of an earlier line or one of this line that came before it.
  rw [lookup_foldl_mark] at hn
  by_contra hm
  rw [List.mem_append, not_or] at hm
  rw [if_neg hm.2] at hn
  exact hn ((hk name).mpr hm.1)

theorem not_duplicateLabel (hk : layout.Knows earlier) (hf : layout.Fresh (splitLine line).1)
    (h : Flaw earlier number line e) : rank e ≠ 0 := by
  cases h with
  | @duplicateLabel before after name hl _ _ hm =>
    obtain ⟨hd, hnot⟩ := hk.fresh_iff.mp hf
    rw [hl] at hd hnot
    obtain hm | hm := List.mem_append.mp hm
    · exact absurd hm (hnot name (by simp))
    · obtain ⟨-, -, hne⟩ := List.nodup_append.mp hd
      exact absurd rfl (hne name hm name List.mem_cons_self)
  | unknownMnemonic | operandCount => nofun

theorem not_flaw_of_addLine (hk : layout.Knows earlier) (h : layout.addLine line number = .ok after)
    (e : ProgramError) : ¬ Flaw earlier number line e := by
  obtain ⟨item, hr, hf, -⟩ := addLine_eq_ok_iff.mp h
  rw [labels_of_reads hr] at hf
  have hread : ∀ {text}, (splitLine line).2 = text → text ≠ [] →
      ∃ s, Statement.read number text = .ok s := by
    rintro text ht hne
    cases hr with
    | bare hs =>
      rw [hs] at ht
      exact absurd ht.symm hne
    | statement hs _ hread =>
      rw [hs] at ht
      cases ht
      exact ⟨_, hread⟩
  intro hflaw
  have hrank := not_duplicateLabel hk hf hflaw
  cases hflaw with
  | duplicateLabel => exact hrank rfl
  | unknownMnemonic ht hne hd =>
    obtain ⟨s, hs⟩ := hread ht hne
    obtain ⟨d, hd', -⟩ := read_eq_ok_iff.mp hs
    cases hd.symm.trans hd'
  | operandCount ht hne hd hfound hc =>
    obtain ⟨s, hs⟩ := hread ht hne
    obtain ⟨d, hd', ha, -⟩ := read_eq_ok_iff.mp hs
    cases hd.symm.trans hd'
    rw [hfound] at ha
    exact hc ha

theorem flaw_of_addLine (hk : layout.Knows earlier) (h : layout.addLine line number = .error e) :
    Flaw earlier number line e ∧ ∀ other, Flaw earlier number line other → rank e ≤ rank other := by
  rw [addLine_eq] at h
  obtain hl | ⟨marked, hm, h⟩ := bind_eq_error_iff.mp h
  · obtain ⟨hflaw, hrank⟩ := flaw_of_addLabel hk hl
    exact ⟨hflaw, fun other _ ↦ hrank ▸ Nat.zero_le _⟩
  · obtain ⟨hf, rfl⟩ := foldlM_addLabel_eq_ok_iff.mp hm
    have hpos : ∀ other, Flaw earlier number line other → 1 ≤ rank other := fun other ho ↦
      Nat.one_le_iff_ne_zero.mpr (not_duplicateLabel hk hf ho)
    cases ht : (splitLine line).2 with
    | nil =>
      rw [ht] at h
      cases h
    | cons c text =>
      rw [ht] at h
      obtain hr | ⟨s, -, h⟩ := bind_eq_error_iff.mp h
      · obtain ⟨hd, rfl⟩ | ⟨d, hd, hc, rfl⟩ := read_eq_error_iff.mp hr
        · exact ⟨.unknownMnemonic ht (List.cons_ne_nil c text) hd, hpos⟩
        · refine ⟨.operandCount ht (List.cons_ne_nil c text) hd rfl hc, fun other ho ↦ ?_⟩
          have hrank := hpos other ho
          cases ho with
          | duplicateLabel => cases hrank
          | unknownMnemonic ht' _ hd' =>
            cases ht.symm.trans ht'
            cases hd.symm.trans hd'
          | operandCount => exact Nat.le_refl 2
      · cases h

theorem knows_of_addLine (hk : layout.Knows earlier) (h : layout.addLine line number = .ok after) :
    after.Knows (earlier ++ (splitLine line).1) := by
  obtain ⟨item, hr, -, rfl⟩ := addLine_eq_ok_iff.mp h
  rw [← labels_of_reads hr]
  exact hk.place item

end Layout

/-- One of some lines has a flaw. The first of the lines has a number, and there are labels from the
lines before it. -/
def FlawAt (earlier : List (List Char)) (number : Nat) (rest : List (List Char)) (k : Nat)
    (e : ProgramError) : Prop :=
  ∃ line, rest[k]? = some line ∧
    Flaw (earlier ++ (rest.take k).flatMap fun line ↦ (splitLine line).1) (k + number) line e

section

variable {earlier rest : List (List Char)} {line : List Char} {number : Nat} {e : ProgramError}

theorem flawAt_zero : FlawAt earlier number (line :: rest) 0 e ↔ Flaw earlier number line e := by
  simp [FlawAt]

theorem flawAt_succ {k : Nat} :
    FlawAt earlier number (line :: rest) (k + 1) e ↔
      FlawAt (earlier ++ (splitLine line).1) (number + 1) rest k e := by
  simp [FlawAt, Nat.succ_add_eq_add_succ]

theorem not_flawAt_of_foldlM {layout after : Layout} (hk : layout.Knows earlier)
    (h : (rest.zipIdx number).foldlM (fun layout x ↦ layout.addLine x.1 x.2) layout = .ok after)
    (k : Nat) (e : ProgramError) : ¬ FlawAt earlier number rest k e := by
  induction rest generalizing earlier number layout k with
  | nil => simp [FlawAt]
  | cons line rest ih =>
    rw [List.zipIdx_cons, List.foldlM_cons] at h
    obtain ⟨middle, hm, h⟩ := bind_eq_ok_iff.mp h
    cases k with
    | zero => exact fun hf ↦ Layout.not_flaw_of_addLine hk hm e (flawAt_zero.mp hf)
    | succ k => exact fun hf ↦ ih (Layout.knows_of_addLine hk hm) h k (flawAt_succ.mp hf)

/-- The run lemma of the first pass, by induction on the lines: it fails at the first line with a
flaw. -/
theorem flawAt_of_foldlM {layout : Layout} (hk : layout.Knows earlier)
    (h : (rest.zipIdx number).foldlM (fun layout x ↦ layout.addLine x.1 x.2) layout = .error e) :
    ∃ k, FlawAt earlier number rest k e ∧
      (∀ j other, FlawAt earlier number rest j other → k ≤ j) ∧
      ∀ other, FlawAt earlier number rest k other → rank e ≤ rank other := by
  induction rest generalizing earlier number layout with
  | nil => cases h
  | cons line rest ih =>
    rw [List.zipIdx_cons, List.foldlM_cons] at h
    obtain hl | ⟨middle, hm, h⟩ := bind_eq_error_iff.mp h
    · obtain ⟨hf, hrank⟩ := Layout.flaw_of_addLine hk hl
      exact ⟨0, flawAt_zero.mpr hf, fun j _ _ ↦ Nat.zero_le j,
        fun other ho ↦ hrank other (flawAt_zero.mp ho)⟩
    · obtain ⟨k, hf, hfirst, hrank⟩ := ih (Layout.knows_of_addLine hk hm) h
      refine ⟨k + 1, flawAt_succ.mpr hf, fun j other ho ↦ ?_,
        fun other ho ↦ hrank other (flawAt_succ.mp ho)⟩
      cases j with
      | zero => exact absurd (flawAt_zero.mp ho) (Layout.not_flaw_of_addLine hk hm other)
      | succ j => exact Nat.succ_le_succ (hfirst j other (flawAt_succ.mp ho))

end

/-- A line of a source, told by its index, has a flaw that the first pass can see. -/
def HasFlaw (source : List Char) (k : Nat) (e : ProgramError) : Prop :=
  FlawAt [] 1 (lines source) k e

variable {source : List Char} {e : ProgramError}

theorem knows_empty : Layout.Knows {} [] :=
  fun _ ↦ ⟨fun _ ↦ nofun, fun _ ↦ rfl⟩

theorem not_hasFlaw_of_ofSource {layout : Layout} (h : Layout.ofSource source = .ok layout) (k : Nat)
    (e : ProgramError) : ¬ HasFlaw source k e :=
  not_flawAt_of_foldlM knows_empty h k e

theorem hasFlaw_of_ofSource (h : Layout.ofSource source = .error e) :
    ∃ k, HasFlaw source k e ∧ (∀ j other, HasFlaw source j other → k ≤ j) ∧
      ∀ other, HasFlaw source k other → rank e ≤ rank other :=
  flawAt_of_foldlM knows_empty h

end ByteMachine.Assembly
