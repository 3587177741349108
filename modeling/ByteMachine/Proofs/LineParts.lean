import ByteMachine.Proofs.AssemblyReading

namespace ByteMachine

namespace Text

variable {blanks : List Char}

theorem trim_blanks_append (hb : Blanks blanks) (text : List Char) :
    trim (blanks ++ text) = trim text := by
  rw [trim, List.dropWhile_append_of_pos fun c hc ↦ (hb c hc).1, trim]

theorem trim_append_blanks (hb : Blanks blanks) (text : List Char) :
    trim (text ++ blanks) = trim text := by
  have hblank : blanks.dropWhile isBlank = [] := by
    rw [List.dropWhile_eq_nil_iff]
    exact fun c hc ↦ (hb c hc).1
  have hreverse : ∀ c ∈ blanks.reverse, isBlank c :=
    fun c hc ↦ (hb c (List.mem_reverse.mp hc)).1
  rw [trim, trim, List.dropWhile_append]
  cases ht : text.dropWhile isBlank with
  | nil => rw [hblank]; rfl
  | cons c rest =>
    change ((c :: rest ++ blanks).reverse.dropWhile isBlank).reverse = _
    rw [List.reverse_append, List.dropWhile_append_of_pos hreverse]

theorem exists_trim (text : List Char) :
    ∃ before after, text = before ++ trim text ++ after ∧ (∀ c ∈ before, isBlank c) ∧
      ∀ c ∈ after, isBlank c := by
  refine ⟨text.takeWhile isBlank, (text.dropWhile isBlank).rtakeWhile isBlank, ?_,
    fun c hc ↦ List.mem_takeWhile_imp hc, fun c hc ↦ List.mem_rtakeWhile_imp hc⟩
  have htrim : trim text = (text.dropWhile isBlank).rdropWhile isBlank := rfl
  rw [htrim, List.append_assoc, List.rdropWhile_append_rtakeWhile, List.takeWhile_append_dropWhile]

theorem exists_of_append_eq {c : Char} {front text label tail : List Char} (hc : c ∉ front)
    (he : front ++ text = label ++ c :: tail) :
    ∃ rest, label = front ++ rest ∧ text = rest ++ c :: tail := by
  induction front generalizing label with
  | nil => exact ⟨label, rfl, he⟩
  | cons d front ih =>
    obtain ⟨hne, hfront⟩ := List.ne_and_not_mem_of_not_mem_cons hc
    cases label with
    | nil => exact absurd (List.cons.inj he).1.symm hne
    | cons e label =>
      obtain ⟨rfl, htail⟩ := List.cons.inj he
      obtain ⟨rest, rfl, ht⟩ := ih hfront htail
      exact ⟨rest, rfl, ht⟩

end Text

namespace Assembly

open Text

variable {text more blanks seen comment : List Char}

def Unlabelled (text : List Char) : Prop :=
  ∀ label tail, text = label ++ ':' :: tail → ¬ isIdentifier (trim label)

theorem Unlabelled.left (h : Unlabelled (text ++ more)) : Unlabelled text := by
  rintro label tail rfl
  refine h label (tail ++ more) ?_
  rw [List.append_assoc, List.cons_append]

theorem colon_not_mem (hb : Blanks blanks) : ':' ∉ blanks :=
  fun hm ↦ nomatch (hb _ hm).1

theorem unlabelled_blanks_append (hb : Blanks blanks) :
    Unlabelled (blanks ++ text) ↔ Unlabelled text := by
  constructor
  · rintro h label tail rfl
    rw [← trim_blanks_append hb]
    exact h _ tail (List.append_assoc _ _ _).symm
  · intro h label tail he
    obtain ⟨rest, rfl, ht⟩ := exists_of_append_eq (colon_not_mem hb) he
    rw [trim_blanks_append hb]
    exact h rest tail ht

theorem unlabelled_of_not_mem (h : ':' ∉ text) : Unlabelled text := by
  rintro label tail rfl
  exact absurd (List.mem_append_right _ List.mem_cons_self) h

theorem splitLabels_of_unlabelled (h : Unlabelled (seen.reverse ++ text)) :
    splitLabels seen text = ([], seen.reverse ++ text) := by
  induction text generalizing seen with
  | nil => rw [splitLabels, List.append_nil]
  | cons c rest ih =>
    rw [splitLabels]
    split
    · next hc =>
      rw [hc] at h ⊢
      exact if_neg (h seen.reverse rest rfl)
    · have hs : seen.reverse ++ c :: rest = (c :: seen).reverse ++ rest := by simp
      rw [hs] at h ⊢
      exact ih h

theorem splitLabels_eq_self (h : Unlabelled text) : splitLabels [] text = ([], text) :=
  splitLabels_of_unlabelled h

theorem not_mem_of_isIdentifier_trim {d : Char} (hn : isNameChar d = false)
    (hd : isBlank d = false) (h : isIdentifier (trim text)) : d ∉ text := by
  obtain ⟨before, after, ht, hb, ha⟩ := exists_trim text
  rw [ht, List.mem_append, List.mem_append]
  rintro ((hm | hm) | hm)
  · cases hd.symm.trans (hb d hm)
  · cases hn.symm.trans ((Word.of_isIdentifier h).all d hm)
  · cases hd.symm.trans (ha d hm)

theorem unlabelled_append_cons {label rest : List Char} (hl : ':' ∉ label)
    (hi : ¬ isIdentifier (trim label)) : Unlabelled (label ++ ':' :: rest) := by
  intro other tail he
  obtain ⟨middle, rfl, hm⟩ := exists_of_append_eq hl he
  cases middle with
  | nil => rwa [List.append_nil]
  | cons c middle =>
    obtain ⟨rfl, -⟩ := List.cons.inj hm
    intro hother
    exact not_mem_of_isIdentifier_trim (d := ':') rfl rfl hother (by simp)

theorem unlabelled_append_comment (h : Unlabelled text)
    (hc : ∀ c ∈ comment.head?, c = ';') : Unlabelled (text ++ comment) := by
  intro label tail he
  obtain ⟨more, rfl, hm⟩ | ⟨more, rfl, hm⟩ := List.append_eq_append_iff.mp he
  · cases more with
    | nil =>
      rw [List.nil_append] at hm
      cases hc ':' (hm ▸ rfl)
    | cons c more =>
      obtain rfl : c = ';' := hc c (hm ▸ rfl)
      exact fun hi ↦ not_mem_of_isIdentifier_trim (d := ';') rfl rfl hi (by simp)
  · cases more with
    | nil =>
      rw [List.nil_append] at hm
      cases hc ':' (hm ▸ rfl)
    | cons c more =>
      obtain ⟨rfl, -⟩ := List.cons.inj hm
      exact h label more rfl

theorem exists_blanks (hn : '\n' ∉ text) :
    ∃ before after, text = before ++ trim text ++ after ∧ Blanks before ∧ Blanks after := by
  obtain ⟨before, after, ht, hb, ha⟩ := exists_trim text
  refine ⟨before, after, ht, fun c hc ↦ ⟨hb c hc, ?_⟩, fun c hc ↦ ⟨ha c hc, ?_⟩⟩
  · rintro rfl
    exact hn (ht ▸ by simp [hc])
  · rintro rfl
    exact hn (ht ▸ by simp [hc])

/-- What is taken off a text is labels, and no label is left in front. By induction from colon to
colon. -/
theorem exists_labels (hn : '\n' ∉ text) :
    ∃ front, text = front ++ (splitLabels [] text).2 ∧
      WrittenLabels (splitLabels [] text).1 front ∧
      (∀ name ∈ (splitLabels [] text).1, isIdentifier name) ∧
      Unlabelled (splitLabels [] text).2 := by
  induction hk : text.length using Nat.strong_induction_on generalizing text with
  | _ k ih =>
    by_cases hm : ':' ∈ text
    · obtain ⟨label, rest, rfl, hl⟩ := List.eq_append_cons_of_mem hm
      rw [List.mem_append, List.mem_cons, not_or, not_or] at hn
      obtain ⟨hlabel, -, hrest⟩ := hn
      rw [List.length_append, List.length_cons] at hk
      by_cases hi : isIdentifier (trim label)
      · obtain ⟨front, hfront, hw, hnames, hu⟩ := ih rest.length (by omega) hrest rfl
        obtain ⟨before, after, ht, hb, ha⟩ := exists_blanks hlabel
        have hsplit : splitLabels [] (label ++ ':' :: rest) =
            (trim label :: (splitLabels [] rest).1, (splitLabels [] rest).2) :=
          splitLabels_append_cons hl [] hi
        have hcons : WrittenLabels (trim label :: (splitLabels [] rest).1)
            (before ++ trim label ++ after ++ ':' :: front) := .cons hb ha hw
        rw [← ht] at hcons
        rw [hsplit]
        refine ⟨label ++ ':' :: front, ?_, hcons, List.forall_mem_cons.mpr ⟨hi, hnames⟩, hu⟩
        rw [List.append_assoc, List.cons_append, ← hfront]
      · have hu : Unlabelled (label ++ ':' :: rest) := unlabelled_append_cons hl hi
        rw [splitLabels_eq_self hu]
        exact ⟨[], rfl, .nil, nofun, hu⟩
    · rw [splitLabels_of_not_mem hm]
      exact ⟨[], rfl, .nil, nofun, unlabelled_of_not_mem hm⟩

theorem splitLabels_append_blanks (hb : Blanks blanks) (seen text : List Char) :
    splitLabels seen (text ++ blanks) =
      ((splitLabels seen text).1, (splitLabels seen text).2 ++ blanks) := by
  induction text generalizing seen with
  | nil => exact splitLabels_of_not_mem (colon_not_mem hb) seen
  | cons c rest ih =>
    rw [List.cons_append, splitLabels, splitLabels]
    split
    · rw [ih]
      dsimp only
      split
      · rfl
      · rw [List.append_assoc, List.cons_append]
    · exact ih (c :: seen)

theorem splitLabels_blanks (hb : Blanks blanks) (seen text : List Char) :
    (splitLabels (seen ++ blanks.reverse) text).1 = (splitLabels seen text).1 ∧
      trim (splitLabels (seen ++ blanks.reverse) text).2 = trim (splitLabels seen text).2 := by
  have hseen : (seen ++ blanks.reverse).reverse = blanks ++ seen.reverse := by simp
  induction text generalizing seen with
  | nil =>
    rw [splitLabels, splitLabels, hseen]
    exact ⟨rfl, trim_blanks_append hb _⟩
  | cons c rest ih =>
    rw [splitLabels, splitLabels, hseen, trim_blanks_append hb]
    split
    · dsimp only
      split
      · exact ⟨rfl, rfl⟩
      · refine ⟨rfl, ?_⟩
        rw [List.append_assoc]
        exact trim_blanks_append hb _
    · exact ih (c :: seen) (by simp)

theorem splitLabels_skip (h : ':' ∉ more) (seen text : List Char) :
    splitLabels seen (more ++ text) = splitLabels (more.reverse ++ seen) text := by
  induction more generalizing seen with
  | nil => rfl
  | cons c more ih =>
    obtain ⟨hc, hm⟩ := List.ne_and_not_mem_of_not_mem_cons h
    rw [List.cons_append, splitLabels, if_neg hc.symm, ih hm, List.reverse_cons, List.append_assoc]
    rfl

theorem takeWhile_of_blanks (hb : Blanks blanks) : blanks.takeWhile (· ≠ ';') = blanks := by
  rw [List.takeWhile_eq_self_iff]
  intro c hc
  refine decide_eq_true ?_
  rintro rfl
  cases (hb _ hc).1

theorem splitLine_eq (line : List Char) :
    splitLine line = ((splitLabels [] (line.takeWhile (· ≠ ';'))).1,
      trim (splitLabels [] (line.takeWhile (· ≠ ';'))).2) :=
  rfl

theorem splitLine_append_comment (line text : List Char) :
    splitLine (line ++ ';' :: text) = splitLine line := by
  have hcut : (line ++ ';' :: text).takeWhile (· ≠ ';') = line.takeWhile (· ≠ ';') := by
    rw [List.takeWhile_append]
    split
    · next hl =>
      rw [(List.takeWhile_prefix _).eq_of_length hl]
      exact List.append_nil line
    · rfl
  rw [splitLine_eq, splitLine_eq, hcut]

theorem splitLine_append_blanks (hb : Blanks blanks) (line : List Char) :
    splitLine (line ++ blanks) = splitLine line := by
  rw [splitLine_eq, splitLine_eq, List.takeWhile_append, takeWhile_of_blanks hb]
  split
  · next hl =>
    rw [(List.takeWhile_prefix _).eq_of_length hl, splitLabels_append_blanks hb,
      trim_append_blanks hb]
  · rfl

theorem splitLine_blanks_append (hb : Blanks blanks) (line : List Char) :
    splitLine (blanks ++ line) = splitLine line := by
  have hcut : (blanks ++ line).takeWhile (· ≠ ';') = blanks ++ line.takeWhile (· ≠ ';') := by
    rw [List.takeWhile_append, takeWhile_of_blanks hb, if_pos rfl]
  obtain ⟨hlabels, htail⟩ := splitLabels_blanks hb [] (line.takeWhile (· ≠ ';'))
  rw [splitLine_eq, splitLine_eq, hcut, splitLabels_skip (colon_not_mem hb), List.append_nil]
  exact Prod.ext hlabels htail

end Assembly

end ByteMachine
