import ByteMachine.Proofs.AssemblyRows
import ByteMachine.Proofs.MnemonicWords
import Mathlib.Logic.Relation

namespace ByteMachine.Assembly

open Text

def withReturns (source : List Char) : List Char :=
  source.flatMap fun c ↦ if c = '\n' then ['\r', '\n'] else [c]

def StartsLine (before : List Char) : Prop :=
  ∀ c ∈ before.getLast?, c = '\n'

def EndsLine (after : List Char) : Prop :=
  after = [] ∨ ∃ finish rest, LineEnd finish ∧ after = finish ++ rest

/-- Edits that leave each line in its place. -/
inductive Edit : List Char → List Char → Prop
  | returns (source : List Char) : Edit source (withReturns source)
  | comment {before after text : List Char} (he : EndsLine after) (ht : '\n' ∉ text) :
      Edit (before ++ after) (before ++ ';' :: text ++ after)
  | start {before after blanks : List Char} (hs : StartsLine before) (hb : Blanks blanks) :
      Edit (before ++ after) (before ++ blanks ++ after)
  | finish {before after blanks : List Char} (he : EndsLine after) (hb : Blanks blanks) :
      Edit (before ++ after) (before ++ blanks ++ after)

/-- A further line, behind the first lines of a source or at its end, with nothing in it but blanks
and a comment. -/
inductive Insertion : Nat → List Char → List Char → Prop
  | before {before after line finish : List Char} (hs : StartsLine before)
      (hl : Line.Written ⟨[], none⟩ line) (hf : LineEnd finish) :
      Insertion (before.count '\n') (before ++ after) (before ++ (line ++ finish) ++ after)
  | behind {before after line finish : List Char} (he : EndsLine after)
      (hl : Line.Written ⟨[], none⟩ line) (hf : LineEnd finish) :
      Insertion (before.count '\n' + 1) (before ++ after) (before ++ (finish ++ line) ++ after)

/-- One line of a source with the word of its statement in another case. -/
inductive Recased (word other : List Char) : Nat → List Char → List Char → Prop
  | mk {before front rest after : List Char} (hs : StartsLine before) (he : EndsLine after)
      (hm : Mnemonic front word rest) (ho : other.map Char.toUpper = word.map Char.toUpper) :
      Recased word other (before.count '\n' + 1) (before ++ (front ++ word ++ rest) ++ after)
        (before ++ (front ++ other ++ rest) ++ after)

/-- The number of a line once there is a further line behind the first `k`. -/
def pushed (k number : Nat) : Nat :=
  if number ≤ k then number else number + 1

section

variable {source other before after line row first last : List Char}
  {init rest front back : List (List Char)}

theorem splitOn_of_startsLine (h : StartsLine before) :
    ∃ init, before.splitOn '\n' = init ++ [[]] := by
  obtain rfl | ⟨front, c, rfl⟩ := List.eq_nil_or_concat' before
  · exact ⟨[], rfl⟩
  · obtain rfl : c = '\n' := h c (by simp)
    exact ⟨front.splitOn '\n', List.splitOn_append_cons_self front []⟩

theorem LineEnd.exists_blanks {finish : List Char} (h : LineEnd finish) :
    ∃ blanks, finish = blanks ++ ['\n'] ∧ Blanks blanks := by
  cases h with
  | feed => exact ⟨[], rfl, .nil⟩
  | returnFeed => exact ⟨['\r'], rfl, by decide⟩

theorem splitOn_of_blanks {blanks : List Char} (hb : Blanks blanks) :
    blanks.splitOn '\n' = [blanks] :=
  List.splitOn_eq_singleton fun hm ↦ (hb _ hm).2 rfl

theorem splitOn_break {blanks : List Char} (hb : before.splitOn '\n' = init ++ [last])
    (hblanks : Blanks blanks) (after : List Char) :
    (before ++ blanks ++ '\n' :: after).splitOn '\n' =
      init ++ [last ++ blanks] ++ after.splitOn '\n' := by
  rw [List.splitOn_append_cons_self, splitOn_append hb (splitOn_of_blanks hblanks)]

theorem splitOn_of_endsLine (h : EndsLine after) :
    ∃ first rest, after.splitOn '\n' = first :: rest ∧ Blanks first := by
  obtain rfl | ⟨finish, rest, hf, rfl⟩ := h
  · exact ⟨[], [], rfl, .nil⟩
  · obtain ⟨blanks, rfl, hb⟩ := hf.exists_blanks
    refine ⟨blanks, rest.splitOn '\n', ?_, hb⟩
    rw [List.append_assoc, List.singleton_append, List.splitOn_append_cons_self,
      splitOn_of_blanks hb]
    rfl

theorem assemble_middle (hb : before.splitOn '\n' = init ++ [last])
    (ha : after.splitOn '\n' = first :: rest) (hn : '\n' ∉ line)
    (hs : splitLine (last ++ line ++ first) = splitLine (last ++ first)) :
    assemble (before ++ line ++ after) = assemble (before ++ after) := by
  refine assemble_congr ?_
  rw [splitOn_middle hb ha hn, splitOn_append hb ha, List.map_append, List.map_append,
    List.map_cons, List.map_cons, hs]

theorem forall₂_withReturns (source : List Char) :
    List.Forall₂ (fun row grown ↦ grown = row ∨ grown = row ++ ['\r']) (source.splitOn '\n')
      ((withReturns source).splitOn '\n') := by
  induction source with
  | nil => exact .cons (.inl rfl) .nil
  | cons c source ih =>
    rw [withReturns, List.flatMap_cons, List.splitOn_cons_eq_if_modifyHead]
    by_cases hc : c = '\n'
    · rw [if_pos hc, if_pos (beq_iff_eq.mpr hc)]
      exact .cons (.inr rfl) ih
    · rw [if_neg hc, if_neg (by simpa using hc), List.singleton_append,
        List.splitOn_cons_eq_if_modifyHead, if_neg (by simpa using hc)]
      change List.Forall₂ _ _ (((withReturns source).splitOn '\n').modifyHead (c :: ·))
      generalize source.splitOn '\n' = rows at ih ⊢
      generalize (withReturns source).splitOn '\n' = others at ih ⊢
      cases ih with
      | nil => exact .nil
      | cons hr hrest =>
        refine .cons (hr.imp (congrArg (c :: ·)) ?_) hrest
        rintro rfl
        rfl

theorem assemble_insert
    (hs : (source.splitOn '\n').map splitLine = (front ++ back).map splitLine)
    (ho : (other.splitOn '\n').map splitLine = (front ++ row :: back).map splitLine)
    (hr : splitLine row = ([], [])) :
    assemble other = (assemble source).mapError (·.renumber (pushed front.length)) := by
  have hfront : ∀ i < front.length, pushed front.length (1 + i) = 1 + i :=
    fun i hi ↦ if_pos (by omega)
  have hfirst := Layout.addRows_renumber (pushed front.length) hfront {}
  rw [Layout.renumber_empty] at hfirst
  have hback : ∀ i < back.length,
      pushed front.length (1 + front.length + i) = 1 + front.length + 1 + i := by
    intro i _
    rw [pushed, if_neg (by omega)]
    omega
  -- The rows in front keep their numbers, those behind are pushed by one.
  have hrows : Layout.addRows {} 1 (front ++ row :: back) =
      translate (·.renumber (pushed front.length)) (·.renumber (pushed front.length))
        (Layout.addRows {} 1 (front ++ back)) := by
    rw [Layout.addRows_append, Layout.addRows_append]
    simp only [Layout.addRows_cons_of_bare hr]
    conv_lhs => rw [hfirst]
    exact translate_bind (Layout.addRows_renumber (pushed front.length) hback) _
  rw [← translate_id, assemble_eq, assemble_eq, Layout.addRows_congr hs, Layout.addRows_congr ho,
    hrows]
  exact translate_bind (Layout.code_renumber (pushed front.length)) _

theorem splitLine_of_bare (h : Line.Written ⟨[], none⟩ line) :
    '\n' ∉ line ∧ splitLine line = ([], []) := by
  refine ⟨Line.not_mem_of_written h ⟨nofun, nofun⟩, ?_⟩
  cases h with
  | bare hl ha hc =>
    cases hl
    rw [List.nil_append]
    cases hc with
    | none =>
      rw [splitLine_append_blanks .nil]
      exact splitLine_append_blanks ha []
    | some =>
      rw [splitLine_append_comment]
      exact splitLine_append_blanks ha []

end

theorem assemble_of_edit {source other : List Char} (h : Edit source other) :
    assemble other = assemble source := by
  cases h with
  | returns =>
    refine assemble_congr ?_
    rw [eq_comm, ← List.forall₂_eq_eq_eq, List.forall₂_map_left_iff, List.forall₂_map_right_iff]
    refine (forall₂_withReturns source).imp ?_
    rintro row grown (rfl | rfl)
    · rfl
    · exact (splitLine_append_blanks (by decide) row).symm
  | @comment before after text he ht =>
    obtain ⟨init, last, hb⟩ := splitOn_eq_append '\n' before
    obtain ⟨first, rest, ha, hf⟩ := splitOn_of_endsLine he
    refine assemble_middle hb ha (by simpa using ht) ?_
    rw [List.append_assoc, List.cons_append, splitLine_append_comment, splitLine_append_blanks hf]
  | @start before after blanks hs hblanks =>
    obtain ⟨init, hb⟩ := splitOn_of_startsLine hs
    obtain ⟨first, rest, ha⟩ := List.exists_cons_of_ne_nil (List.splitOn_ne_nil '\n' after)
    refine assemble_middle hb ha (fun hm ↦ (hblanks _ hm).2 rfl) ?_
    exact splitLine_blanks_append hblanks first
  | @finish before after blanks he hblanks =>
    obtain ⟨init, last, hb⟩ := splitOn_eq_append '\n' before
    obtain ⟨first, rest, ha, hf⟩ := splitOn_of_endsLine he
    refine assemble_middle hb ha (fun hm ↦ (hblanks _ hm).2 rfl) ?_
    rw [splitLine_append_blanks hf, splitLine_append_blanks hblanks, splitLine_append_blanks hf]

theorem assemble_of_insertion {k : Nat} {source other : List Char} (h : Insertion k source other) :
    assemble other = (assemble source).mapError (·.renumber (pushed k)) := by
  cases h with
  | @before before after line finish hs hl hf =>
    obtain ⟨hn, hbare⟩ := splitLine_of_bare hl
    obtain ⟨init, hb⟩ := splitOn_of_startsLine hs
    obtain ⟨first, rest, ha⟩ := List.exists_cons_of_ne_nil (List.splitOn_ne_nil '\n' after)
    obtain ⟨blanks, rfl, hblanks⟩ := hf.exists_blanks
    have hrow : splitLine (line ++ blanks) = ([], []) :=
      (splitLine_append_blanks hblanks line).trans hbare
    have hcut : before ++ (line ++ (blanks ++ ['\n'])) ++ after =
        before ++ line ++ blanks ++ '\n' :: after := by simp
    have hrows : (before ++ (line ++ (blanks ++ ['\n'])) ++ after).splitOn '\n' =
        init ++ (line ++ blanks) :: first :: rest := by
      rw [hcut, splitOn_break (splitOn_append hb (List.splitOn_eq_singleton hn)) hblanks, ha,
        List.append_assoc]
      rfl
    rw [← length_of_splitOn hb]
    exact assemble_insert (congrArg _ (splitOn_append hb ha)) (congrArg _ hrows) hrow
  | @behind before after line finish he hl hf =>
    obtain ⟨hn, hbare⟩ := splitLine_of_bare hl
    obtain ⟨init, last, hb⟩ := splitOn_eq_append '\n' before
    obtain ⟨first, rest, ha, hfirst⟩ := splitOn_of_endsLine he
    obtain ⟨blanks, rfl, hblanks⟩ := hf.exists_blanks
    have hrow : splitLine (line ++ first) = ([], []) :=
      (splitLine_append_blanks hfirst line).trans hbare
    have hline : line.splitOn '\n' = [] ++ [line] := List.splitOn_eq_singleton hn
    have hcut : before ++ (blanks ++ ['\n'] ++ line) ++ after =
        before ++ blanks ++ '\n' :: (line ++ after) := by simp
    have hrows : (before ++ (blanks ++ ['\n'] ++ line) ++ after).splitOn '\n' =
        init ++ [last ++ blanks] ++ (line ++ first) :: rest := by
      rw [hcut, splitOn_break hb hblanks, splitOn_append hline ha]
      rfl
    have hsource : ((before ++ after).splitOn '\n').map splitLine =
        (init ++ [last ++ blanks] ++ rest).map splitLine := by
      rw [splitOn_append hb ha, List.append_assoc, List.map_append, List.map_append, List.map_cons,
        splitLine_append_blanks hfirst, ← splitLine_append_blanks hblanks last]
      rfl
    have hlength : before.count '\n' + 1 = (init ++ [last ++ blanks]).length := by
      rw [List.length_append, length_of_splitOn hb, List.length_singleton]
    rw [hlength]
    exact assemble_insert hsource (congrArg _ hrows) hrow

theorem Mnemonic.not_mem {front word rest : List Char} (h : Mnemonic front word rest) :
    '\n' ∉ front ++ word ++ rest := by
  obtain ⟨names, labels, blanks, rfl, hlabels, hnames, hb⟩ := h.front
  simp only [List.mem_append, not_or]
  refine ⟨⟨⟨Line.not_mem_front hlabels hnames (.inr rfl), fun hm ↦ (hb _ hm).2 rfl⟩, fun hm ↦ ?_⟩,
    h.row⟩
  cases (h.inner _ hm).1

theorem assemble_of_recased {word changed source other : List Char} {number : Nat}
    (h : Recased word changed number source other) :
    assemble other = assemble source ∨
      assemble source = .error (.unknownMnemonic number (String.ofList word)) ∧
        assemble other = .error (.unknownMnemonic number (String.ofList changed)) := by
  cases h with
  | @mk before front rest after hs he hm ho =>
    obtain ⟨init, hb⟩ := splitOn_of_startsLine hs
    obtain ⟨first, rows, ha, hfirst⟩ := splitOn_of_endsLine he
    have hsplit (text : List Char) : splitLine ([] ++ text ++ first) = splitLine text :=
      splitLine_append_blanks hfirst text
    rw [← length_of_splitOn hb,
      assemble_of_splitOn (splitOn_middle hb ha hm.not_mem) (hsplit _),
      assemble_of_splitOn (splitOn_middle hb ha (hm.recase ho).not_mem) (hsplit _)]
    cases Layout.addRows {} 1 init with
    | error e => exact .inl rfl
    | ok layout =>
      obtain h | ⟨hw, hc⟩ := addLine_recase hm ho layout (init.length + 1)
      · left
        change (layout.addLine _ _ >>= _) = (layout.addLine _ _ >>= _)
        rw [h]
      · right
        change (layout.addLine _ _ >>= _) = _ ∧ (layout.addLine _ _ >>= _) = _
        rw [hw, hc]
        exact ⟨rfl, rfl⟩

/-- What of a source does not matter. Line ends with or without carriage returns, comments and
blanks at the ends of lines change nothing, in whatever number such edits are made or taken back. A
further line with nothing in it pushes the numbers of the lines behind it. Where the word of a
statement is in another case, it is quoted as it is written if it is unknown, and nothing else
changes. -/
theorem assemble_of_edits :
    (∀ source other, Relation.EqvGen Edit source other → assemble other = assemble source) ∧
    (∀ k source other, Insertion k source other →
      assemble other = (assemble source).mapError (·.renumber (pushed k))) ∧
    (∀ word changed number source other, Recased word changed number source other →
      assemble other = assemble source ∨
        assemble source = .error (.unknownMnemonic number (String.ofList word)) ∧
          assemble other = .error (.unknownMnemonic number (String.ofList changed))) ∧
    ∀ line word, '\n' ∉ line →
      ((∃ front rest, line = front ++ word ++ rest ∧ Mnemonic front word rest) ↔
        (splitLine line).2 ≠ [] ∧ Statement.word (splitLine line).2 = word) := by
  refine ⟨fun source other h ↦ ?_, fun _ _ _ ↦ assemble_of_insertion,
    fun _ _ _ _ _ ↦ assemble_of_recased, fun _ _ ↦ mnemonic_iff⟩
  induction h with
  | rel source other h => exact assemble_of_edit h
  | refl source => rfl
  | symm source other _ ih => exact ih.symm
  | trans source middle other _ _ ih ih' => exact ih'.trans ih

def unknown : List Char :=
  "x:\tfoo 1\nHLT".toList

theorem assemble_of_edits_unknown :
    assemble unknown = .error (.unknownMnemonic 1 "foo") ∧
      assemble (withReturns unknown) = .error (.unknownMnemonic 1 "foo") ∧
      assemble (" ;\n".toList ++ unknown) = .error (.unknownMnemonic 2 "foo") ∧
      assemble "x:\tFoo 1\nHLT".toList = .error (.unknownMnemonic 1 "Foo") := by
  have hsource : assemble unknown = .error (.unknownMnemonic 1 "foo") := by decide
  have hne : assemble "x:\tFoo 1\nHLT".toList ≠ assemble unknown := by decide
  have hline : Line.Written ⟨[], none⟩ [' ', ';'] :=
    .bare .nil (show Blanks [' '] by decide) (.some nofun)
  have hinsertion : Insertion 0 unknown (" ;\n".toList ++ unknown) :=
    @Insertion.before [] unknown [' ', ';'] ['\n'] nofun hline .feed
  have hlabel : WrittenLabels [['x']] ['x', ':'] := .cons .nil .nil .nil
  have hletters : ∀ c ∈ ['f', 'o', 'o'], isNameChar c := List.all_eq_true.mp rfl
  have hword : Mnemonic ['x', ':', '\t'] ['f', 'o', 'o'] [' ', '1'] :=
    { front := ⟨_, _, ['\t'], rfl, hlabel, by decide, by decide⟩
      ne_nil := by decide
      inner := fun c hc ↦ ⟨isBlank_of_isNameChar (hletters c hc), fun he ↦
        nomatch he ▸ hletters c hc⟩
      boundary := fun c hc ↦ by cases hc; exact .inl rfl
      row := by decide
      unlabelled := unlabelled_of_not_mem (by decide) }
  have hrecased : Recased ['f', 'o', 'o'] ['F', 'o', 'o'] 1 unknown "x:\tFoo 1\nHLT".toList :=
    @Recased.mk _ _ [] _ _ "\nHLT".toList nofun (.inr ⟨_, _, .feed, rfl⟩) hword (by decide)
  obtain ⟨hedit, hinsert, hrecase, -⟩ := assemble_of_edits
  refine ⟨hsource, ?_, ?_, ((hrecase _ _ _ _ _ hrecased).resolve_left hne).2⟩
  · rw [hedit _ _ (.rel _ _ (.returns unknown)), hsource]
  · rw [hinsert _ _ _ hinsertion, hsource]
    rfl

end ByteMachine.Assembly
