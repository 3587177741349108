import ByteMachine.Proofs.LineParts

namespace ByteMachine

namespace Text

theorem mem_head?_of_isPrefix {text other : List Char} (h : text <+: other) :
    ∀ c ∈ text.head?, c ∈ other.head? := by
  obtain ⟨rest, rfl⟩ := h
  intro c hc
  cases text with
  | nil => cases hc
  | cons d text => exact hc

theorem head_trim (text : List Char) : ∀ c ∈ (trim text).head?, isBlank c = false := by
  intro c hc
  have hprefix : trim text <+: text.dropWhile isBlank := List.rdropWhile_prefix isBlank _
  have hnot := List.head?_dropWhile_not isBlank text
  rw [mem_head?_of_isPrefix hprefix c hc] at hnot
  exact hnot

end Text

namespace Assembly

open Text

variable {text : List Char}

theorem toUpper_eq_self_or (c : Char) : c.toUpper = c ∨ isNameStart c ∧ isNameStart c.toUpper := by
  by_cases hl : c.isLower
  · right
    have hall : ∀ n < 26, isNameStart (Char.ofNat (97 + n)) ∧
        isNameStart (Char.ofNat (97 + n)).toUpper := by decide
    simp only [Char.isLower, Bool.and_eq_true, decide_eq_true_eq, ge_iff_le,
      UInt32.le_iff_toNat_le] at hl
    have hle : 97 ≤ c.toNat ∧ c.toNat ≤ 122 := hl
    have hc : Char.ofNat (97 + (c.toNat - 97)) = c := by
      rw [Nat.add_sub_cancel' hle.1, Char.ofNat_toNat]
    have hletter := hall (c.toNat - 97) (by omega)
    rwa [hc] at hletter
  · exact .inl (Char.toUpper_eq_of_not_isLower hl)

theorem isNameStart_toUpper (c : Char) : isNameStart c.toUpper = isNameStart c := by
  obtain h | ⟨hc, hu⟩ := toUpper_eq_self_or c
  · rw [h]
  · rw [hc, hu]

theorem isNameChar_toUpper (c : Char) : isNameChar c.toUpper = isNameChar c := by
  obtain h | ⟨hc, hu⟩ := toUpper_eq_self_or c
  · rw [h]
  · rw [isNameChar_of_isNameStart hc, isNameChar_of_isNameStart hu]

theorem isBlank_toUpper (c : Char) : isBlank c.toUpper = isBlank c := by
  obtain h | ⟨hc, hu⟩ := toUpper_eq_self_or c
  · rw [h]
  · rw [isBlank_of_isNameChar (isNameChar_of_isNameStart hc),
      isBlank_of_isNameChar (isNameChar_of_isNameStart hu)]

theorem eq_of_toUpper_eq {c d : Char} (hd : isNameStart d = false) (h : c.toUpper = d) : c = d := by
  obtain hc | ⟨-, hu⟩ := toUpper_eq_self_or c
  · exact hc.symm.trans h
  · rw [h, hd] at hu
    cases hu

theorem isIdentifier_map_toUpper (text : List Char) :
    isIdentifier (text.map Char.toUpper) = isIdentifier text := by
  cases text with
  | nil => rfl
  | cons c text =>
    rw [List.map_cons, isIdentifier, isIdentifier, isNameStart_toUpper, List.all_map]
    congr 2
    exact funext isNameChar_toUpper

theorem trim_map_toUpper (text : List Char) :
    trim (text.map Char.toUpper) = (trim text).map Char.toUpper := by
  have hblank : isBlank ∘ Char.toUpper = isBlank := funext isBlank_toUpper
  rw [trim, trim, List.dropWhile_map, ← List.map_reverse, List.dropWhile_map, ← List.map_reverse,
    hblank]

/-- Where a line has the word of its statement: behind labels, in front of a blank, a comment or the
end of the line. -/
structure Mnemonic (front word rest : List Char) : Prop where
  front : ∃ names labels blanks, front = labels ++ blanks ∧ WrittenLabels names labels ∧
    (∀ name ∈ names, isIdentifier name) ∧ Blanks blanks
  ne_nil : word ≠ []
  inner : ∀ c ∈ word, isBlank c = false ∧ c ≠ ';'
  boundary : ∀ c ∈ rest.head?, isBlank c ∨ c = ';'
  row : '\n' ∉ rest
  unlabelled : Unlabelled (word ++ rest)

theorem exists_tail (hn : '\n' ∉ text) :
    ∃ tail after, text = tail ++ after ∧ Blanks after ∧ ∀ c ∈ tail.getLast?, isBlank c = false := by
  have ht : text.rdropWhile isBlank ++ text.rtakeWhile isBlank = text :=
    List.rdropWhile_append_rtakeWhile
  refine ⟨_, _, ht.symm, fun c hc ↦ ⟨List.mem_rtakeWhile_imp hc, ?_⟩, fun c hc ↦ ?_⟩
  · rintro rfl
    exact hn (ht ▸ List.mem_append_right _ hc)
  · obtain ⟨hne, rfl⟩ := List.mem_getLast?_eq_getLast hc
    exact Bool.eq_false_iff.mpr (List.rdropWhile_last_not isBlank text hne)

theorem tight_append {tail : List Char} (hne : text ≠ []) (ht : ∀ c ∈ text, isBlank c = false)
    (hl : ∀ c ∈ tail.getLast?, isBlank c = false) : Tight (text ++ tail) := by
  have htight : Tight text := .of_forall ht
  refine ⟨?_, ?_⟩
  · rw [List.head?_append_of_ne_nil _ hne]
    exact htight.head
  · cases tail with
    | nil =>
      rw [List.append_nil]
      exact htight.last
    | cons c tail =>
      rw [List.getLast?_append_of_ne_nil _ (List.cons_ne_nil c tail)]
      exact hl

namespace Mnemonic

variable {front word other rest : List Char}

theorem splitLine_eq (h : Mnemonic front word rest) :
    ∃ names tail, (∀ c ∈ tail.head?, isBlank c) ∧ ∀ other, Mnemonic front other rest →
      splitLine (front ++ other ++ rest) = (names, other ++ tail) := by
  obtain ⟨names, labels, blanks, rfl, hlabels, hnames, hb⟩ := h.front
  have hcut : rest.takeWhile (· ≠ ';') ++ rest.dropWhile (· ≠ ';') = rest :=
    List.takeWhile_append_dropWhile
  have hrow : '\n' ∉ rest.takeWhile (· ≠ ';') := fun hm ↦
    h.row ((List.takeWhile_prefix _).subset hm)
  obtain ⟨tail, after, ht, ha, hlast⟩ := exists_tail hrow
  refine ⟨names, tail, fun c hc ↦ ?_, fun other ho ↦ ?_⟩
  · have htail : tail <+: rest.takeWhile (· ≠ ';') := ⟨after, ht.symm⟩
    have hne : c ≠ ';' := by
      have hm := htail.subset (List.mem_of_mem_head? hc)
      simpa using List.mem_takeWhile_imp hm
    have hhead := mem_head?_of_isPrefix (htail.trans (List.takeWhile_prefix _)) c hc
    exact (h.boundary c hhead).resolve_right hne
  · have hfront : ∀ c ∈ labels ++ blanks ++ other, decide (c ≠ ';') := by
      intro c hc
      refine decide_eq_true ?_
      rintro rfl
      rw [List.mem_append, List.mem_append] at hc
      obtain (hc | hc) | hc := hc
      · exact Line.not_mem_front hlabels hnames (.inl rfl) hc
      · cases (hb _ hc).1
      · exact (ho.inner _ hc).2 rfl
    have hu : Unlabelled (blanks ++ (other ++ rest.takeWhile (· ≠ ';'))) := by
      rw [unlabelled_blanks_append hb]
      have hall := ho.unlabelled
      rw [← hcut, ← List.append_assoc] at hall
      exact hall.left
    have htight := tight_append ho.ne_nil (fun c hc ↦ (ho.inner c hc).1) hlast
    rw [Assembly.splitLine_eq, List.takeWhile_append_of_pos hfront, List.append_assoc,
      List.append_assoc, splitLabels_append hlabels hnames (splitLabels_eq_self hu), ht,
      ← List.append_assoc other, ← List.append_assoc, trim_append hb htight ha]

theorem recase (h : Mnemonic front word rest)
    (ho : other.map Char.toUpper = word.map Char.toUpper) : Mnemonic front other rest where
  front := h.front
  ne_nil := by
    rintro rfl
    exact h.ne_nil (List.map_eq_nil_iff.mp ho.symm)
  inner := by
    intro c hc
    have hm : c.toUpper ∈ word.map Char.toUpper := ho ▸ List.mem_map_of_mem hc
    obtain ⟨d, hd, hu⟩ := List.mem_map.mp hm
    obtain ⟨hblank, hne⟩ := h.inner d hd
    refine ⟨by rw [← isBlank_toUpper, ← hu, isBlank_toUpper, hblank], ?_⟩
    rintro rfl
    exact hne (eq_of_toUpper_eq rfl hu)
  boundary := h.boundary
  row := h.row
  unlabelled := by
    intro label tail he
    have hmap : (word ++ rest).map Char.toUpper = label.map Char.toUpper ++
        (':' :: tail).map Char.toUpper := by
      rw [List.map_append, ← ho, ← List.map_append, he, List.map_append]
    obtain ⟨same, others, hs, hl, ht⟩ := List.map_eq_append_iff.mp hmap
    obtain ⟨d, others, rfl, hd, -⟩ := List.map_eq_cons_iff.mp ht
    obtain rfl : d = ':' := eq_of_toUpper_eq rfl hd
    have hnot := h.unlabelled same others hs
    rwa [← isIdentifier_map_toUpper, ← trim_map_toUpper, hl, trim_map_toUpper,
      isIdentifier_map_toUpper] at hnot

end Mnemonic

theorem read_recase {word other tail : List Char} (number : Nat)
    (hw : ∀ c ∈ word, isBlank c = false) (hv : ∀ c ∈ other, isBlank c = false)
    (ho : other.map Char.toUpper = word.map Char.toUpper) (ht : ∀ c ∈ tail.head?, isBlank c) :
    Statement.read number (other ++ tail) = Statement.read number (word ++ tail) ∨
      Statement.read number (word ++ tail) =
          .error (.unknownMnemonic number (String.ofList word)) ∧
        Statement.read number (other ++ tail) =
          .error (.unknownMnemonic number (String.ofList other)) := by
  obtain ⟨hword, htail⟩ := Statement.word_append hw ht
  obtain ⟨hother, hsame⟩ := Statement.word_append hv ht
  rw [Statement.read_eq, Statement.read_eq, Statement.upperWord, Statement.upperWord, hword, htail,
    hother, hsame, ho]
  cases Directive.ofWord? (word.map Char.toUpper) with
  | none => exact .inr ⟨rfl, rfl⟩
  | some d => exact .inl rfl

theorem addLine_of_ne_nil {layout : Layout} {line text : List Char} {number : Nat}
    {names : List (List Char)} (hs : splitLine line = (names, text)) (ht : text ≠ []) :
    layout.addLine line number = names.foldlM (Layout.addLabel number) layout >>= fun marked ↦
      Statement.read number text >>= fun s ↦ .ok (marked.addStatement s) := by
  rw [Layout.addLine_eq, hs]
  cases text with
  | nil => exact absurd rfl ht
  | cons c text => rfl

theorem addLine_recase {front word other rest : List Char} (h : Mnemonic front word rest)
    (ho : other.map Char.toUpper = word.map Char.toUpper) (layout : Layout) (number : Nat) :
    layout.addLine (front ++ other ++ rest) number = layout.addLine (front ++ word ++ rest) number ∨
      layout.addLine (front ++ word ++ rest) number =
          .error (.unknownMnemonic number (String.ofList word)) ∧
        layout.addLine (front ++ other ++ rest) number =
          .error (.unknownMnemonic number (String.ofList other)) := by
  have hother := h.recase ho
  obtain ⟨names, tail, ht, hsplit⟩ := h.splitLine_eq
  rw [addLine_of_ne_nil (hsplit word h) (by simp [h.ne_nil]),
    addLine_of_ne_nil (hsplit other hother) (by simp [hother.ne_nil])]
  cases names.foldlM (Layout.addLabel number) layout with
  | error e => exact .inl rfl
  | ok marked =>
    refine (read_recase number (fun c hc ↦ (h.inner c hc).1) (fun c hc ↦ (hother.inner c hc).1) ho
      ht).imp (fun hread ↦ ?_) fun hread ↦ ⟨?_, ?_⟩
    · rw [hread]
    · rw [hread.1]
      rfl
    · rw [hread.2]
      rfl

theorem exists_word (hn : '\n' ∉ text) (hne : trim text ≠ []) :
    ∃ before tail, text = before ++ (Statement.word (trim text) ++ tail) ∧ Blanks before ∧
      Statement.word (trim text) ≠ [] ∧ (∀ c ∈ Statement.word (trim text), isBlank c = false) ∧
      ∀ c ∈ tail.head?, isBlank c := by
  obtain ⟨before, after, ht, hb, ha⟩ := exists_blanks hn
  have hsplit : Statement.word (trim text) ++ (trim text).dropWhile (!isBlank ·) = trim text :=
    List.takeWhile_append_dropWhile
  refine ⟨before, (trim text).dropWhile (!isBlank ·) ++ after, ?_, hb, ?_, fun c hc ↦ ?_,
    fun c hc ↦ ?_⟩
  · rw [← List.append_assoc (Statement.word _), hsplit, ← List.append_assoc]
    exact ht
  · have hhead := head_trim text
    obtain ⟨c, rest, hc⟩ := List.exists_cons_of_ne_nil hne
    rw [hc] at hhead ⊢
    have hnot : (!isBlank c) = true := by rw [hhead c rfl]; rfl
    rw [Statement.word, List.takeWhile_cons_of_pos (p := (!isBlank ·)) hnot]
    exact List.cons_ne_nil c _
  · simpa using List.mem_takeWhile_imp hc
  · have hnot := List.head?_dropWhile_not (!isBlank ·) (trim text)
    cases hd : (trim text).dropWhile (!isBlank ·) with
    | nil =>
      rw [hd] at hc
      exact (ha c (List.mem_of_mem_head? hc)).1
    | cons d rest =>
      rw [hd] at hc hnot
      cases hc
      simpa using hnot

theorem mnemonic_of_cut {cut comment : List Char} (hn : '\n' ∉ cut ++ comment) (hs : ';' ∉ cut)
    (hc : ∀ c ∈ comment.head?, c = ';') (hne : trim (splitLabels [] cut).2 ≠ []) :
    ∃ front rest,
      cut ++ comment = front ++ Statement.word (trim (splitLabels [] cut).2) ++ rest ∧
      Mnemonic front (Statement.word (trim (splitLabels [] cut).2)) rest := by
  rw [List.mem_append, not_or] at hn
  obtain ⟨labels, hlabels, hw, hnames, hu⟩ := exists_labels hn.1
  have hrow : '\n' ∉ (splitLabels [] cut).2 := fun hm ↦
    hn.1 (hlabels ▸ List.mem_append_right _ hm)
  obtain ⟨before, tail, ht, hb, hword, hblank, hhead⟩ := exists_word hrow hne
  have hcut := hlabels.trans (congrArg (labels ++ ·) ht)
  have hmem : ∀ c, c ∈ Statement.word (trim (splitLabels [] cut).2) ++ tail → c ∈ cut := by
    intro c hm
    rw [hcut]
    exact List.mem_append_right _ (List.mem_append_right _ hm)
  refine ⟨labels ++ before, tail ++ comment, ?_, ⟨_, labels, before, rfl, hw, hnames, hb⟩, hword,
    fun c hm ↦ ⟨hblank c hm, ?_⟩, fun c hm ↦ ?_, ?_, ?_⟩
  · exact (congrArg (· ++ comment) hcut).trans (by simp only [List.append_assoc])
  · rintro rfl
    exact hs (hmem _ (List.mem_append_left _ hm))
  · cases tail with
    | nil => exact .inr (hc c hm)
    | cons d tail => exact .inl (hhead c hm)
  · rw [List.mem_append, not_or]
    exact ⟨fun hm ↦ hn.1 (hmem _ (List.mem_append_right _ hm)), hn.2⟩
  · rw [ht, unlabelled_blanks_append hb] at hu
    rw [← List.append_assoc]
    exact unlabelled_append_comment hu hc

theorem exists_mnemonic {line : List Char} (hn : '\n' ∉ line) (hne : (splitLine line).2 ≠ []) :
    ∃ front rest, line = front ++ Statement.word (splitLine line).2 ++ rest ∧
      Mnemonic front (Statement.word (splitLine line).2) rest := by
  have hline : line.takeWhile (· ≠ ';') ++ line.dropWhile (· ≠ ';') = line :=
    List.takeWhile_append_dropWhile
  have hcut := mnemonic_of_cut (hline ▸ hn)
    (fun hm ↦ by simpa using List.mem_takeWhile_imp hm) (fun c hc ↦ ?_) hne
  · rwa [hline] at hcut
  · have hnot := List.head?_dropWhile_not (· ≠ ';') line
    rw [hc] at hnot
    simpa using hnot

/-- The word of a statement is what stands where a line has its word. -/
theorem mnemonic_iff {line word : List Char} (hn : '\n' ∉ line) :
    (∃ front rest, line = front ++ word ++ rest ∧ Mnemonic front word rest) ↔
      (splitLine line).2 ≠ [] ∧ Statement.word (splitLine line).2 = word := by
  constructor
  · rintro ⟨front, rest, rfl, h⟩
    obtain ⟨names, tail, ht, hs⟩ := h.splitLine_eq
    rw [hs word h]
    exact ⟨by simp [h.ne_nil], (Statement.word_append (fun c hc ↦ (h.inner c hc).1) ht).1⟩
  · rintro ⟨hne, rfl⟩
    exact exists_mnemonic hn hne

end Assembly

end ByteMachine
