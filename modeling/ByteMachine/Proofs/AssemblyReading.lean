import Mathlib
import ByteMachine.Proofs.AssemblyLayout

namespace ByteMachine.Assembly

open Text

theorem toNat_of_isNameChar {c : Char} (h : isNameChar c) :
    48 ≤ c.toNat ∧ c.toNat ≤ 57 ∨ 65 ≤ c.toNat ∧ c.toNat ≤ 90 ∨ c.toNat = 95 ∨
      97 ≤ c.toNat ∧ c.toNat ≤ 122 := by
  simp only [isNameChar, Char.isAlphanum, Char.isAlpha, Char.isUpper, Char.isLower, Char.isDigit,
    Bool.or_eq_true, Bool.and_eq_true, decide_eq_true_eq, ge_iff_le, UInt32.le_iff_toNat_le] at h
  obtain ((h | h) | h) | rfl := h
  · exact .inr (.inl h)
  · exact .inr (.inr (.inr h))
  · exact .inl h
  · exact .inr (.inr (.inl rfl))

theorem isBlank_of_isNameChar {c : Char} (h : isNameChar c) : isBlank c = false := by
  have hn := toNat_of_isNameChar h
  simp only [isBlank, blankRanges, List.any_cons, List.any_nil, Bool.or_false, Bool.or_eq_false_iff,
    Bool.and_eq_false_iff, decide_eq_false_iff_not]
  omega

theorem isNameChar_of_isNameStart {c : Char} (h : isNameStart c) : isNameChar c := by
  rw [isNameStart, Bool.or_eq_true] at h
  rw [isNameChar, Char.isAlphanum, Bool.or_eq_true, Bool.or_eq_true]
  exact h.imp_left .inl

theorem isNameChar_of_isDigit {base : Nat} (hb : base ≤ 16) {c : Char} {d : Nat}
    (h : Numeral.IsDigit base c d) : isNameChar c := by
  apply (h.mono hb).elim
  decide

structure Word (text : List Char) : Prop where
  ne_nil : text ≠ []
  all : ∀ c ∈ text, isNameChar c

namespace Word

variable {text : List Char}

theorem cons {c : Char} (hc : isNameChar c) (h : ∀ d ∈ text, isNameChar d) : Word (c :: text) := by
  refine ⟨nofun, ?_⟩
  intro d hd
  obtain rfl | hd := List.mem_cons.mp hd
  · exact hc
  · exact h d hd

theorem tight (h : Word text) : Tight text :=
  .of_forall fun c hc ↦ isBlank_of_isNameChar (h.all c hc)

theorem of_isIdentifier (h : isIdentifier text) : Word text := by
  cases text with
  | nil => cases h
  | cons c text =>
    obtain ⟨hc, ht⟩ := Bool.and_eq_true_iff.mp h
    exact cons (isNameChar_of_isNameStart hc) (List.all_eq_true.mp ht)

theorem of_denotes {base : Nat} (hb : base ≤ 16) {n : Nat} (h : Numeral.Denotes base text n) :
    Word text :=
  ⟨h.1, Numeral.forall_of_denotes (fun _ _ ↦ isNameChar_of_isDigit hb) h⟩

theorem of_written {a : Argument} (h : a.Written text)
    (hl : ∀ name, a = .label name → isIdentifier name) : Word text := by
  cases h with
  | register h hd =>
    refine cons ?_ (of_denotes (by omega) hd).all
    obtain rfl | rfl := h <;> rfl
  | decimal hd => exact of_denotes (by omega) hd
  | hexadecimal hd => exact cons rfl (cons rfl (of_denotes (by omega) hd).all).all
  | binary hd => exact cons rfl (cons rfl (of_denotes (by omega) hd).all).all
  | label => exact of_isIdentifier (hl text rfl)

end Word

/-- Apart from the colons behind labels, all that stands in a line in front of its comment. -/
def IsInner (c : Char) : Prop :=
  isNameChar c ∨ (isBlank c ∧ c ≠ '\n') ∨ c = ','

theorem IsInner.ne {c d : Char} (h : IsInner c) (hd : d = ':' ∨ d = ';' ∨ d = '\n') : c ≠ d := by
  rintro rfl
  obtain hn | ⟨hb, hne⟩ | rfl := h
  · obtain rfl | rfl | rfl := hd <;> cases hn
  · obtain rfl | rfl | rfl := hd
    · cases hb
    · cases hb
    · exact hne rfl
  · obtain hd | hd | hd := hd <;> cases hd

theorem Word.inner {text : List Char} (h : Word text) : ∀ c ∈ text, IsInner c :=
  fun c hc ↦ .inl (h.all c hc)

theorem inner_of_blanks {text : List Char} (h : Blanks text) : ∀ c ∈ text, IsInner c :=
  fun c hc ↦ .inr (.inl (h c hc))

theorem inner_append {s t : List Char} (hs : ∀ c ∈ s, IsInner c) (ht : ∀ c ∈ t, IsInner c) :
    ∀ c ∈ s ++ t, IsInner c := by
  intro c hc
  obtain hc | hc := List.mem_append.mp hc
  · exact hs c hc
  · exact ht c hc

theorem inner_padded {before text after : List Char} (hb : Blanks before)
    (ht : ∀ c ∈ text, IsInner c) (ha : Blanks after) : ∀ c ∈ before ++ text ++ after, IsInner c :=
  inner_append (inner_append (inner_of_blanks hb) ht) (inner_of_blanks ha)

theorem not_mem_of_inner {text : List Char} (h : ∀ c ∈ text, IsInner c) {d : Char}
    (hd : d = ':' ∨ d = ';' ∨ d = '\n') : d ∉ text :=
  fun hm ↦ (h d hm).ne hd rfl

section

def Identified (arguments : List Argument) : Prop :=
  ∀ name, .label name ∈ arguments → isIdentifier name

theorem Identified.head {a : Argument} {as : List Argument} (h : Identified (a :: as)) :
    ∀ name, a = .label name → isIdentifier name :=
  fun name ha ↦ h name (ha ▸ List.mem_cons_self)

theorem Identified.tail {a : Argument} {as : List Argument} (h : Identified (a :: as)) :
    Identified as :=
  fun name hm ↦ h name (List.mem_cons_of_mem a hm)

variable {as : List Argument} {text : List Char}

theorem WrittenArguments.inner (h : WrittenArguments as text) (hl : Identified as) :
    ∀ c ∈ text, IsInner c := by
  induction h with
  | one hb ht => exact inner_append (inner_of_blanks hb) (Word.of_written ht hl.head).inner
  | cons hb ht ha _ ih =>
    refine inner_append (inner_padded hb (Word.of_written ht hl.head).inner ha) fun c hc ↦ ?_
    obtain rfl | hc := List.mem_cons.mp hc
    · exact .inr (.inr rfl)
    · exact ih hl.tail c hc

theorem WrittenArguments.last (h : WrittenArguments as text) (hl : Identified as) :
    text ≠ [] ∧ ∀ c ∈ text.getLast?, isBlank c = false := by
  induction h with
  | one hb ht =>
    have hw := Word.of_written ht hl.head
    refine ⟨fun h ↦ hw.ne_nil (List.append_eq_nil_iff.mp h).2, ?_⟩
    rw [List.getLast?_append_of_ne_nil _ hw.ne_nil]
    exact hw.tight.last
  | cons hb ht ha _ ih =>
    obtain ⟨hne, hlast⟩ := ih hl.tail
    refine ⟨by simp, ?_⟩
    rw [List.getLast?_append_of_ne_nil _ (List.cons_ne_nil _ _), List.getLast?_cons_of_ne_nil hne]
    exact hlast

theorem WrittenArguments.cons_blank {gap : Char} (hg : Blanks [gap])
    (h : WrittenArguments as text) : WrittenArguments as (gap :: text) := by
  have hcons {before : List Char} (hb : Blanks before) : Blanks (gap :: before) := by
    intro c hc
    obtain rfl | hc := List.mem_cons.mp hc
    · exact hg c List.mem_cons_self
    · exact hb c hc
  cases h with
  | one hb ht => exact .one (hcons hb) ht
  | cons hb ht ha hr => exact .cons (hcons hb) ht ha hr

theorem comma_not_mem {before after : List Char} (hb : Blanks before) (hw : Word text)
    (ha : Blanks after) : ',' ∉ before ++ text ++ after := by
  intro hm
  rw [List.mem_append, List.mem_append] at hm
  obtain (hm | hm) | hm := hm
  · cases (hb _ hm).1
  · cases hw.all _ hm
  · cases (ha _ hm).1

theorem WrittenArguments.operandTexts (h : WrittenArguments as text) (hl : Identified as) :
    List.Forall₂ Argument.Written as (Statement.operandTexts text) := by
  induction h with
  | @one a before text hb ht =>
    have hw := Word.of_written ht hl.head
    have hn := comma_not_mem hb hw .nil
    have hcut := trim_append hb hw.tight .nil
    rw [List.append_nil] at hn hcut
    rw [Statement.operandTexts, pieces_of_not_mem hn (by simp [hw.ne_nil]), List.map_singleton,
      hcut, List.filter_cons_of_pos (by simpa using hw.ne_nil)]
    exact .cons ht .nil
  | cons hb ht ha _ ih =>
    have hw := Word.of_written ht hl.head
    rw [Statement.operandTexts, pieces_append_cons (comma_not_mem hb hw ha), List.map_cons,
      trim_append hb hw.tight ha, List.filter_cons_of_pos (by simpa using hw.ne_nil)]
    exact .cons ht (ih hl.tail)

end

namespace Directive

theorem ofWord?_word (d : Directive) : ofWord? d.word = some d := by
  cases d with
  | instruction i => cases i <;> decide
  | data => rfl

theorem word_ne_nil (d : Directive) : d.word ≠ [] := by
  cases d with
  | instruction i => cases i <;> decide
  | data => decide

theorem all_isUpper_word (d : Directive) : d.word.all Char.isUpper := by
  cases d with
  | instruction i => cases i <;> decide
  | data => rfl

theorem map_toUpper_word (d : Directive) : d.word.map Char.toUpper = d.word := by
  cases d with
  | instruction i => cases i <;> decide
  | data => rfl

end Directive

theorem isNameChar_of_toUpper {c : Char} (h : c.toUpper.isUpper) : isNameChar c := by
  rw [Char.isUpper_toUpper_eq_isAlpha] at h
  rw [isNameChar, Char.isAlphanum, h, Bool.true_or, Bool.true_or]

theorem Directive.word_of_toUpper {d : Directive} {text : List Char}
    (hw : text.map Char.toUpper = d.word) : Word text := by
  refine ⟨?_, ?_⟩
  · rintro rfl
    exact d.word_ne_nil hw.symm
  · intro c hc
    have hm : c.toUpper ∈ d.word := hw ▸ List.mem_map_of_mem hc
    exact isNameChar_of_toUpper (List.all_eq_true.mp d.all_isUpper_word _ hm)

theorem Statement.word_append {word rest : List Char} (hw : ∀ c ∈ word, isBlank c = false)
    (hr : ∀ c ∈ rest.head?, isBlank c) :
    Statement.word (word ++ rest) = word ∧ tailTexts (word ++ rest) = operandTexts rest := by
  have hb : ∀ c ∈ word, (!isBlank c) = true := by
    intro c hc
    rw [hw c hc]
    rfl
  have hh : ∀ c ∈ rest.head?, (!isBlank c) = false := by
    intro c hc
    rw [hr c hc]
    rfl
  exact ⟨takeWhile_append_of_head hb hh, congrArg operandTexts (dropWhile_append_of_head hb hh)⟩

theorem Statement.read_append {d : Directive} {word rest : List Char} (number : Nat)
    (hw : word.map Char.toUpper = d.word) (hr : ∀ c ∈ rest.head?, isBlank c)
    (hl : (operandTexts rest).length = d.arity (operandTexts rest).length) :
    Statement.read number (word ++ rest) = .ok ⟨number, d, operandTexts rest⟩ := by
  have hletters := (Directive.word_of_toUpper hw).all
  obtain ⟨hword, htail⟩ := word_append (fun c hc ↦ isBlank_of_isNameChar (hletters c hc)) hr
  rw [read_eq, upperWord, hword, htail, hw, Directive.ofWord?_word]
  exact if_pos hl

namespace Command

variable {c : Command} {text : List Char}

theorem inner_of_written (h : c.Written text) (hl : Identified c.arguments) :
    ∀ d ∈ text, IsInner d := by
  cases h with
  | bare hw _ => exact (Directive.word_of_toUpper hw).inner
  | arguments hw hg ha =>
    exact inner_append (Directive.word_of_toUpper hw).inner (ha.cons_blank hg |>.inner hl)

theorem tight_of_written (h : c.Written text) (hl : Identified c.arguments) :
    text ≠ [] ∧ Tight text := by
  cases h with
  | bare hw _ => exact ⟨(Directive.word_of_toUpper hw).ne_nil, (Directive.word_of_toUpper hw).tight⟩
  | arguments hw hg ha =>
    have hword := Directive.word_of_toUpper hw
    have hlast := (ha.cons_blank hg).last hl
    refine ⟨by simp, ?_, ?_⟩
    · rw [List.head?_append_of_ne_nil _ hword.ne_nil]
      exact hword.tight.head
    · rw [List.getLast?_append_of_ne_nil _ hlast.1]
      exact hlast.2

theorem arity_eq (c : Command) : c.directive.arity c.arguments.length = c.arguments.length := by
  have hs := congrArg List.length c.slots_eq
  have hne := c.nonempty
  rw [List.length_map] at hs
  cases hd : c.directive with
  | instruction i =>
    rw [hd] at hs
    exact hs.symm
  | data =>
    have hpos := List.length_pos_iff.mpr (hne hd)
    exact Nat.max_eq_left hpos

structure Stated (c : Command) (s : Statement) : Prop where
  directive : s.directive = c.directive
  operands : List.Forall₂ Argument.Written c.arguments s.operands

theorem read_of_parts {word rest : List Char} (number : Nat)
    (hw : word.map Char.toUpper = c.directive.word) (hr : ∀ d ∈ rest.head?, isBlank d)
    (ho : List.Forall₂ Argument.Written c.arguments (Statement.operandTexts rest)) :
    ∃ s, Statement.read number (word ++ rest) = .ok s ∧ Stated c s := by
  have hl : (Statement.operandTexts rest).length =
      c.directive.arity (Statement.operandTexts rest).length := by
    rw [← ho.length_eq, c.arity_eq]
  exact ⟨_, Statement.read_append number hw hr hl, rfl, ho⟩

theorem read_of_written (number : Nat) (h : c.Written text) (hl : Identified c.arguments) :
    ∃ s, Statement.read number text = .ok s ∧ Stated c s := by
  cases h with
  | bare hw ha =>
    have hr : ∃ s, Statement.read number (text ++ []) = .ok s ∧ Stated c s :=
      read_of_parts number hw nofun (ha ▸ .nil)
    rwa [List.append_nil] at hr
  | arguments hw hg ha =>
    refine read_of_parts number hw ?_ ((ha.cons_blank hg).operandTexts hl)
    intro d hd
    cases hd
    exact (hg _ List.mem_cons_self).1

end Command

section

variable {text rest : List Char}

theorem splitLabels_of_not_mem (h : ':' ∉ text) (seen : List Char) :
    splitLabels seen text = ([], seen.reverse ++ text) := by
  induction text generalizing seen with
  | nil => rw [splitLabels, List.append_nil]
  | cons c text ih =>
    obtain ⟨hc, ht⟩ := List.ne_and_not_mem_of_not_mem_cons h
    rw [splitLabels, if_neg hc.symm, ih ht, List.reverse_cons, List.append_assoc]
    rfl

theorem splitLabels_append_cons (h : ':' ∉ text) (seen : List Char)
    (hl : isIdentifier (trim (seen.reverse ++ text))) :
    splitLabels seen (text ++ ':' :: rest) =
      (trim (seen.reverse ++ text) :: (splitLabels [] rest).1, (splitLabels [] rest).2) := by
  induction text generalizing seen with
  | nil =>
    rw [List.append_nil] at hl
    rw [List.nil_append, splitLabels, if_pos rfl, List.append_nil]
    exact if_pos hl
  | cons c text ih =>
    obtain ⟨hc, ht⟩ := List.ne_and_not_mem_of_not_mem_cons h
    have hs : seen.reverse ++ c :: text = (c :: seen).reverse ++ text := by
      rw [List.reverse_cons, List.append_assoc]
      rfl
    rw [hs] at hl ⊢
    rw [List.cons_append, splitLabels, if_neg hc.symm, ih ht (c :: seen) hl]

theorem splitLabels_append {names : List (List Char)} {front : List Char}
    (h : WrittenLabels names front) (hi : ∀ name ∈ names, isIdentifier name)
    (ht : splitLabels [] text = ([], text)) : splitLabels [] (front ++ text) = (names, text) := by
  induction h with
  | nil => exact ht
  | @cons name names before after rest hb ha _ ih =>
    have hw := Word.of_isIdentifier (hi name List.mem_cons_self)
    have htrim := trim_append hb hw.tight ha
    have hn : ':' ∉ before ++ name ++ after :=
      not_mem_of_inner (inner_padded hb hw.inner ha) (.inl rfl)
    rw [List.append_assoc, List.cons_append, splitLabels_append_cons hn [], ih, List.reverse_nil,
      List.nil_append, htrim]
    · exact fun name hm ↦ hi name (List.mem_cons_of_mem _ hm)
    · rw [List.reverse_nil, List.nil_append, htrim]
      exact hi name List.mem_cons_self

theorem splitLabels_of_written {names : List (List Char)} {front : List Char}
    (h : WrittenLabels names front) (hi : ∀ name ∈ names, isIdentifier name) (ht : ':' ∉ text) :
    splitLabels [] (front ++ text) = (names, text) :=
  splitLabels_append h hi (splitLabels_of_not_mem ht [])

theorem takeWhile_comment {comment : List Char} (h : ';' ∉ text) (hc : Comment comment) :
    (text ++ comment).takeWhile (· ≠ ';') = text := by
  refine takeWhile_append_of_head (fun c hm ↦ ?_) (fun c hm ↦ ?_)
  · exact decide_eq_true fun he ↦ h (he ▸ hm)
  · cases hc with
    | none => cases hm
    | some => cases hm; rfl

end

namespace Line

structure Named (line : Line) : Prop where
  labels : ∀ name ∈ line.labels, isIdentifier name
  arguments : ∀ c ∈ line.command?, Identified c.arguments

variable {line : Line} {text : List Char}

theorem not_mem_front {names : List (List Char)} {front : List Char}
    (h : WrittenLabels names front) (hi : ∀ name ∈ names, isIdentifier name) {d : Char}
    (hd : d = ';' ∨ d = '\n') : d ∉ front := by
  induction h with
  | nil => nofun
  | @cons name names before after rest hb ha _ ih =>
    have hw := Word.of_isIdentifier (hi name List.mem_cons_self)
    have hn : d ∉ before ++ name ++ after :=
      not_mem_of_inner (inner_padded hb hw.inner ha) (.inr hd)
    have hcolon : d ≠ ':' := by
      rintro rfl
      obtain hd | hd := hd <;> cases hd
    rw [List.mem_append, List.mem_cons]
    intro hm
    obtain hm | rfl | hm := hm
    · exact hn hm
    · exact hcolon rfl
    · exact ih (fun name hm ↦ hi name (List.mem_cons_of_mem _ hm)) hm

/-- A line taken apart: its labels, the text of its command and its comment. -/
theorem parts_of_written (h : line.Written text) (hl : line.Named) :
    ∃ front body comment, text = front ++ body ++ comment ∧ WrittenLabels line.labels front ∧
      Comment comment ∧ (∀ c ∈ body, IsInner c) ∧
      ((line.command? = none ∧ trim body = []) ∨
        ∃ c, line.command? = some c ∧ c.Written (trim body) ∧ trim body ≠ []) := by
  cases h with
  | bare hf ha hc =>
    have htrim := trim_append .nil .nil ha
    exact ⟨_, _, _, rfl, hf, hc, inner_of_blanks ha, .inl ⟨rfl, htrim⟩⟩
  | @command labels c front before text after comment hf hb ht ha hc =>
    have hargs := hl.arguments c rfl
    obtain ⟨hne, htight⟩ := Command.tight_of_written ht hargs
    have htrim := trim_append hb htight ha
    refine ⟨_, _, _, rfl, hf, hc, ?_, .inr ⟨c, rfl, htrim.symm ▸ ht, htrim.symm ▸ hne⟩⟩
    exact inner_padded hb (Command.inner_of_written ht hargs) ha

theorem not_mem_of_written (h : line.Written text) (hl : line.Named) : '\n' ∉ text := by
  obtain ⟨front, body, comment, rfl, hf, hc, hb, -⟩ := parts_of_written h hl
  rw [List.mem_append, List.mem_append]
  intro hm
  obtain (hm | hm) | hm := hm
  · exact not_mem_front hf hl.labels (.inr rfl) hm
  · exact not_mem_of_inner hb (.inr (.inr rfl)) hm
  · cases hc with
    | none => cases hm
    | some ht =>
      obtain hm | hm := List.mem_cons.mp hm
      · cases hm
      · exact ht hm

structure Itemized (line : Line) (item : Item) : Prop where
  labels : item.labels = line.labels
  command : Option.Rel Command.Stated line.command? item.statement?

theorem reads_of_written (number : Nat) (h : line.Written text) (hl : line.Named) :
    ∃ item, Reads (text, number) item ∧ Itemized line item := by
  obtain ⟨front, body, comment, rfl, hf, hc, hb, hbody⟩ := parts_of_written h hl
  have hsemicolon : ';' ∉ front ++ body := by
    rw [List.mem_append]
    intro hm
    obtain hm | hm := hm
    · exact not_mem_front hf hl.labels (.inl rfl) hm
    · exact not_mem_of_inner hb (.inr (.inl rfl)) hm
  have hsplit : splitLine (front ++ body ++ comment) = (line.labels, trim body) := by
    rw [splitLine, takeWhile_comment hsemicolon hc,
      splitLabels_of_written hf hl.labels (not_mem_of_inner hb (.inl rfl))]
  obtain ⟨hnone, htrim⟩ | ⟨c, hsome, ht, hne⟩ := hbody
  · rw [htrim] at hsplit
    exact ⟨_, .bare hsplit, rfl, hnone ▸ .none⟩
  · obtain ⟨s, hr, hs⟩ := Command.read_of_written number ht (hl.arguments c hsome)
    exact ⟨_, .statement hsplit hne hr, rfl, hsome ▸ .some hs⟩

end Line

end ByteMachine.Assembly
