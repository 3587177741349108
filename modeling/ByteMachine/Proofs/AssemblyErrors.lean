import ByteMachine.Proofs.AssemblyFlaws
import ByteMachine.Proofs.AssemblyPasses

namespace ByteMachine.Assembly

open Text Statement

theorem infix_splitLabels (seen text : List Char) :
    (∀ label ∈ (splitLabels seen text).1, label <:+: seen.reverse ++ text) ∧
      (splitLabels seen text).2 <:+: seen.reverse ++ text := by
  induction text generalizing seen with
  | nil => exact ⟨nofun, List.infix_append_left⟩
  | cons c rest ih =>
    rw [splitLabels]
    split
    · obtain ⟨hlabels, htail⟩ := ih []
      have hrest : rest <:+: seen.reverse ++ c :: rest :=
        List.infix_append_of_infix_right (List.suffix_cons c rest).isInfix
      dsimp only
      split
      · refine ⟨?_, htail.trans hrest⟩
        intro label hl
        obtain rfl | hl := List.mem_cons.mp hl
        · exact (infix_trim _).trans List.infix_append_left
        · exact (hlabels label hl).trans hrest
      · exact ⟨nofun, List.infix_rfl⟩
    · have hseen : (c :: seen).reverse ++ rest = seen.reverse ++ c :: rest := by simp
      rw [← hseen]
      exact ih (c :: seen)

theorem infix_splitLine (line : List Char) :
    (∀ label ∈ (splitLine line).1, label <:+: line) ∧ (splitLine line).2 <:+: line := by
  obtain ⟨hlabels, htail⟩ := infix_splitLabels [] (line.takeWhile (· ≠ ';'))
  have hfront : line.takeWhile (· ≠ ';') <:+: line := (List.takeWhile_prefix _).isInfix
  exact ⟨fun label hl ↦ (hlabels label hl).trans hfront,
    (infix_trim _).trans (htail.trans hfront)⟩

theorem infix_word (text : List Char) : word text <:+: text :=
  (List.takeWhile_prefix _).isInfix

theorem infix_tailTexts {text operand : List Char} (h : operand ∈ tailTexts text) :
    operand <:+: text := by
  obtain ⟨hm, -⟩ := List.mem_filter.mp h
  obtain ⟨piece, hp, rfl⟩ := List.mem_map.mp hm
  have hpiece := (infix_pieces ',' (text.dropWhile (!isBlank ·))).2 piece hp
  exact (infix_trim piece).trans (hpiece.trans (List.dropWhile_suffix _).isInfix)

/-- Where an error points: the text that it quotes stands in the line whose number it gives. Only
the word of a wrong number of operands is quoted in upper case. -/
inductive Located (source : List Char) : ProgramError → Prop
  | programTooLarge {size : Nat} (h : 256 < size) : Located source (.programTooLarge size)
  | duplicateLabel {k : Nat} {line name : List Char} (hk : (lines source)[k]? = some line)
      (hi : name <:+: line) : Located source (.duplicateLabel (k + 1) (String.ofList name))
  | unknownMnemonic {k : Nat} {line word : List Char} (hk : (lines source)[k]? = some line)
      (hi : word <:+: line) : Located source (.unknownMnemonic (k + 1) (String.ofList word))
  | operandCount {k expected found : Nat} {line word : List Char}
      (hk : (lines source)[k]? = some line) (hi : word <:+: line) (hne : found ≠ expected) :
      Located source
        (.operandCount (k + 1) (String.ofList (word.map Char.toUpper)) expected found)
  | invalidOperand {k : Nat} {line operand : List Char} (hk : (lines source)[k]? = some line)
      (hi : operand <:+: line) : Located source (.invalidOperand (k + 1) (String.ofList operand))
  | undefinedLabel {k : Nat} {line label : List Char} (hk : (lines source)[k]? = some line)
      (hi : label <:+: line) : Located source (.undefinedLabel (k + 1) (String.ofList label))

variable {source : List Char} {e : ProgramError}

theorem HasFlaw.located {k : Nat} (h : HasFlaw source k e) : Located source e := by
  obtain ⟨line, hk, hf⟩ := h
  obtain ⟨hlabels, htext⟩ := infix_splitLine line
  cases hf with
  | @duplicateLabel before after name hl =>
    exact .duplicateLabel hk (hlabels name (by simp [hl]))
  | unknownMnemonic ht =>
    rw [ht] at htext
    exact .unknownMnemonic hk ((infix_word _).trans htext)
  | operandCount ht _ _ _ hc =>
    rw [ht] at htext
    exact .operandCount hk ((infix_word _).trans htext) hc

structure Reference where
  line : Nat
  slot : Slot
  text : List Char
  deriving DecidableEq

def Reference.resolve (labels : Labels) (r : Reference) : Except ProgramError UInt8 :=
  Assembly.resolve labels r.line r.slot r.text

def Statement.references (s : Statement) : List Reference :=
  ((s.directive.slots s.operands.length).zip s.operands).map fun x ↦ ⟨s.line, x.1, x.2⟩

def references (items : List Item) : List Reference :=
  (statements items).flatMap Statement.references

theorem of_resolve_error {labels : Labels} {r : Reference} (h : r.resolve labels = .error e) :
    e = .invalidOperand r.line (String.ofList r.text) ∨
      e = .undefinedLabel r.line (String.ofList r.text) ∧ labels.lookup r.text = none := by
  obtain ⟨line, slot, text⟩ := r
  rw [Reference.resolve] at h
  cases slot with
  | register =>
    rw [Assembly.resolve] at h
    split at h
    · cases h
    · cases h
      exact .inl rfl
  | immediate =>
    rw [Assembly.resolve, resolveImmediate] at h
    split at h
    · split at h
      · next hl =>
        cases h
        exact .inr ⟨rfl, hl⟩
      · split at h
        · cases h
        · cases h
          exact .inl rfl
    · split at h
      · split at h
        · cases h
        · cases h
          exact .inl rfl
      · cases h
        exact .inl rfl

theorem refusal?_encode (labels : Labels) (s : Statement) :
    refusal? (s.encode labels) =
      s.references.findSome? fun r ↦ refusal? (r.resolve labels) := by
  rw [Statement.references, List.findSome?_map]
  exact (refusal?_bind_ok _ _).trans (refusal?_mapM _ _)

theorem refusal?_mapM_encode (labels : Labels) (ss : List Statement) :
    refusal? (ss.mapM (·.encode labels)) =
      (ss.flatMap Statement.references).findSome? fun r ↦ refusal? (r.resolve labels) := by
  rw [refusal?_mapM]
  induction ss with
  | nil => rfl
  | cons s ss ih =>
    rw [List.flatMap_cons, List.findSome?_append, ← ih, ← refusal?_encode, List.findSome?_cons]
    cases refusal? (s.encode labels) <;> rfl

theorem assemble_eq_error_iff :
    assemble source = .error e ↔
      Layout.ofSource source = .error e ∨
      ∃ layout, Layout.ofSource source = .ok layout ∧
        (layout.statements.toList.mapM (·.encode layout.labels) = .error e ∨
          ∃ encodings, layout.statements.toList.mapM (·.encode layout.labels) = .ok encodings ∧
            256 < encodings.flatten.length ∧ e = .programTooLarge encodings.flatten.length) := by
  rw [assemble, bind_eq_error_iff]
  refine or_congr_right (exists_congr fun layout ↦ and_congr_right fun _ ↦ ?_)
  rw [bind_eq_error_iff]
  refine or_congr_right (exists_congr fun encodings ↦ and_congr_right fun _ ↦ ?_)
  dsimp only
  by_cases hle : encodings.flatten.length ≤ 256
  · rw [if_pos hle]
    constructor
    · intro h
      cases h
    · intro h
      exact absurd hle (Nat.not_le.mpr h.1)
  · rw [if_neg hle, Except.error.injEq, eq_comm]
    exact ⟨fun h ↦ ⟨Nat.not_le.mp hle, h⟩, And.right⟩

section

variable {items : List Item} {layout : Layout}

theorem Layout.Knows.foldl_place {earlier : List (List Char)} (hk : layout.Knows earlier) :
    (items.foldl Layout.place layout).Knows (earlier ++ items.flatMap Item.labels) := by
  induction items generalizing layout earlier with
  | nil => simpa using hk
  | cons item items ih => simpa using ih (hk.place item)

/-- What the first pass makes of a source: the items that its lines are read as, laid out one behind
the other. -/
structure LaidOut (source : List Char) (items : List Item) (layout : Layout) : Prop where
  reads : List.Forall₂ Reads ((lines source).zipIdx 1) items
  layout_eq : Layout.ofSource source = .ok layout
  statements_eq : layout.statements.toList = statements items
  knows : layout.Knows (items.flatMap Item.labels)

theorem laidOut_of_ofSource (h : Layout.ofSource source = .ok layout) :
    ∃ items, LaidOut source items layout := by
  obtain ⟨items, hr, -, rfl⟩ := Layout.ofSource_eq_ok_iff.mp h
  exact ⟨items, hr, h, Layout.statements_foldl_place {} items, knows_empty.foldl_place⟩

namespace LaidOut

variable (h : LaidOut source items layout)

include h

theorem eq_of_map {α : Type} (f : List Statement → α) {a : α}
    (hm : (Layout.ofSource source).map (fun layout ↦ f layout.statements.toList) = .ok a) :
    f (statements items) = a := by
  rw [h.layout_eq] at hm
  rw [← h.statements_eq]
  exact Except.ok.inj hm

theorem infix_of_mem {r : Reference} (hr : r ∈ references items) :
    ∃ k line, (lines source)[k]? = some line ∧ r.line = k + 1 ∧ r.text <:+: line := by
  obtain ⟨s, hs, hr⟩ := List.mem_flatMap.mp hr
  obtain ⟨⟨line, number⟩, hx, hread⟩ := read_of_mem_statements h.reads s hs
  obtain ⟨hpos, hk⟩ := List.mk_mem_zipIdx_iff_le_and_getElem?_sub.mp hx
  obtain ⟨d, -, -, rfl⟩ := read_eq_ok_iff.mp hread
  obtain ⟨⟨slot, text⟩, hm, rfl⟩ := List.mem_map.mp hr
  have htext : text ∈ tailTexts (splitLine line).2 := (List.of_mem_zip hm).2
  exact ⟨number - 1, line, hk, (Nat.sub_add_cancel hpos).symm,
    (infix_tailTexts htext).trans (infix_splitLine line).2⟩

theorem located_of_resolve {r : Reference} (hr : r ∈ references items)
    (he : r.resolve layout.labels = .error e) : Located source e := by
  obtain ⟨k, line, hk, hnumber, hi⟩ := h.infix_of_mem hr
  obtain rfl | ⟨rfl, -⟩ := of_resolve_error he
  · rw [hnumber]
    exact .invalidOperand hk hi
  · rw [hnumber]
    exact .undefinedLabel hk hi

theorem mapM_encode_eq_error_iff :
    layout.statements.toList.mapM (·.encode layout.labels) = .error e ↔
      ∃ before r after, references items = before ++ r :: after ∧
        r.resolve layout.labels = .error e ∧
        ∀ q ∈ before, ∃ value, q.resolve layout.labels = .ok value := by
  rw [← refusal?_eq_some_iff, refusal?_mapM_encode, h.statements_eq, List.findSome?_eq_some_iff]
  simp only [refusal?_eq_some_iff, refusal?_eq_none_iff]
  rfl

theorem mapM_encode_of_resolves
    (hall : ∀ r ∈ references items, ∃ value, r.resolve layout.labels = .ok value) :
    ∃ encodings, layout.statements.toList.mapM (·.encode layout.labels) = .ok encodings ∧
      encodings.flatten.length = ((statements items).map Statement.size).sum := by
  have hnone : refusal? (layout.statements.toList.mapM (·.encode layout.labels)) = none := by
    rw [refusal?_mapM_encode, h.statements_eq, List.findSome?_eq_none_iff]
    exact fun r hr ↦ refusal?_eq_none_iff.mpr (hall r hr)
  obtain ⟨encodings, he⟩ := refusal?_eq_none_iff.mp hnone
  have hencodes := mapM_eq_ok_iff.mp he
  rw [h.statements_eq] at hencodes
  have hp : Passes source items layout encodings :=
    ⟨h.reads, h.layout_eq, h.statements_eq, hencodes⟩
  exact ⟨encodings, he, hp.length_flatten⟩

end LaidOut

end

theorem not_hasFlaw_of_map {α : Type} {f : Layout → α} {a : α}
    (h : (Layout.ofSource source).map f = .ok a) (k : Nat) (e : ProgramError) :
    ¬ HasFlaw source k e := by
  cases hl : Layout.ofSource source with
  | error other =>
    rw [hl] at h
    cases h
  | ok layout => exact not_hasFlaw_of_ofSource hl k e

theorem located_of_assemble (h : assemble source = .error e) : Located source e := by
  obtain hl | ⟨layout, hl, he | ⟨encodings, -, hsize, rfl⟩⟩ := assemble_eq_error_iff.mp h
  · obtain ⟨k, hf, -⟩ := hasFlaw_of_ofSource hl
    exact hf.located
  · obtain ⟨items, hlaid⟩ := laidOut_of_ofSource hl
    obtain ⟨before, r, after, hr, he, -⟩ := hlaid.mapM_encode_eq_error_iff.mp he
    exact hlaid.located_of_resolve (by simp [hr]) he
  · exact .programTooLarge hsize

/-- What the assembler reports. If a line has a flaw that the first pass can see, it is the first
flaw of the first such line, whatever operands come before. Otherwise it is the first operand that
does not resolve, however large the program is; otherwise its size, if memory does not hold it; and
otherwise nothing. An error points to a place in the source. -/
theorem assemble_reports (source : List Char) :
    ((∃ k e, HasFlaw source k e) →
      ∃ k e, assemble source = .error e ∧ HasFlaw source k e ∧
        (∀ j other, HasFlaw source j other → k ≤ j) ∧
        ∀ other, HasFlaw source k other → rank e ≤ rank other) ∧
    ((∀ k e, ¬ HasFlaw source k e) →
      ∃ items layout, LaidOut source items layout ∧
        (∀ before r after e, references items = before ++ r :: after →
          (∀ q ∈ before, ∃ value, q.resolve layout.labels = .ok value) →
          r.resolve layout.labels = .error e →
            assemble source = .error e ∧
              (e = .invalidOperand r.line (String.ofList r.text) ∨
                e = .undefinedLabel r.line (String.ofList r.text) ∧
                  r.text ∉ items.flatMap Item.labels)) ∧
        ((∀ r ∈ references items, ∃ value, r.resolve layout.labels = .ok value) →
          ∀ size, size = ((statements items).map Statement.size).sum →
            (256 < size → assemble source = .error (.programTooLarge size)) ∧
            (size ≤ 256 → ∃ code, assemble source = .ok code ∧ code.length = size))) ∧
    ∀ e, assemble source = .error e → Located source e := by
  refine ⟨fun hflaw ↦ ?_, fun hno ↦ ?_, fun e ↦ located_of_assemble⟩
  · obtain ⟨j, other, hj⟩ := hflaw
    cases hl : Layout.ofSource source with
    | ok layout => exact absurd hj (not_hasFlaw_of_ofSource hl j other)
    | error e =>
      obtain ⟨k, hf, hfirst, hrank⟩ := hasFlaw_of_ofSource hl
      exact ⟨k, e, assemble_eq_error_iff.mpr (.inl hl), hf, hfirst, hrank⟩
  · cases hl : Layout.ofSource source with
    | error e =>
      obtain ⟨k, hf, -⟩ := hasFlaw_of_ofSource hl
      exact absurd hf (hno k e)
    | ok layout =>
      obtain ⟨items, h⟩ := laidOut_of_ofSource hl
      refine ⟨items, layout, h, ?_, ?_⟩
      · intro before r after e hr hb he
        refine ⟨assemble_eq_error_iff.mpr (.inr ⟨layout, hl, .inl ?_⟩), ?_⟩
        · exact h.mapM_encode_eq_error_iff.mpr ⟨before, r, after, hr, he, hb⟩
        · exact (of_resolve_error he).imp_right fun hu ↦ ⟨hu.1, (h.knows r.text).mp hu.2⟩
      · rintro hall size rfl
        obtain ⟨encodings, he, hsize⟩ := h.mapM_encode_of_resolves hall
        constructor
        · intro hlt
          rw [← hsize] at hlt ⊢
          exact assemble_eq_error_iff.mpr (.inr ⟨layout, hl, .inr ⟨encodings, he, hlt, rfl⟩⟩)
        · intro hle
          rw [← hsize] at hle ⊢
          exact ⟨encodings.flatten,
            assemble_eq_ok_iff.mpr ⟨layout, encodings, hl, mapM_eq_ok_iff.mp he, rfl, hle⟩, rfl⟩

def crowded : List Char :=
  'D' :: 'B' :: (List.replicate 257 [' ', '0', ',']).flatten

/-- A label given twice and an unknown word in one line, two operands that do not resolve, and more
data than memory holds. -/
theorem assemble_reports_first :
    (∃ k ≤ 1, HasFlaw "x: PRN R9\nx: FOO".toList k (.duplicateLabel 2 "x")) ∧
    assemble "PRN R9\nLDI R0,y".toList = .error (.invalidOperand 1 "R9") ∧
    assemble crowded = .error (.programTooLarge 257) ∧
    Located "x: PRN R9\nx: FOO".toList (.duplicateLabel 2 "x") := by
  have htwice : assemble "x: PRN R9\nx: FOO".toList = .error (.duplicateLabel 2 "x") := by decide
  have hflaw : HasFlaw "x: PRN R9\nx: FOO".toList 1 (.unknownMnemonic 2 "FOO") :=
    ⟨"x: FOO".toList, rfl, .unknownMnemonic rfl (by decide) (by decide)⟩
  obtain ⟨hfirst, -, hlocated⟩ := assemble_reports "x: PRN R9\nx: FOO".toList
  obtain ⟨k, e, he, hk, hle, -⟩ := hfirst ⟨1, _, hflaw⟩
  cases htwice.symm.trans he
  refine ⟨⟨k, hle 1 _ hflaw, hk⟩, ?_, ?_, hlocated _ htwice⟩
  · have hlaid : (Layout.ofSource "PRN R9\nLDI R0,y".toList).map
        (·.statements.toList.flatMap Statement.references) =
          .ok [⟨1, .register, ['R', '9']⟩, ⟨2, .register, ['R', '0']⟩, ⟨2, .immediate, ['y']⟩] := by
      decide
    obtain ⟨-, hno, -⟩ := assemble_reports "PRN R9\nLDI R0,y".toList
    obtain ⟨items, layout, h, hunresolved, -⟩ := hno (not_hasFlaw_of_map hlaid)
    exact (hunresolved [] _ _ _ (h.eq_of_map (·.flatMap Statement.references) hlaid) nofun rfl).1
  · have hlaid : (Layout.ofSource crowded).map (fun layout ↦
        (layout.statements.toList.flatMap Statement.references,
          (layout.statements.toList.map Statement.size).sum)) =
          .ok (List.replicate 257 ⟨1, .immediate, ['0']⟩, 257) := by
      decide +kernel
    obtain ⟨-, hno, -⟩ := assemble_reports crowded
    obtain ⟨items, layout, h, -, hsize⟩ := hno (not_hasFlaw_of_map hlaid)
    obtain ⟨hr, hs⟩ := Prod.mk.inj (h.eq_of_map
      (fun ss ↦ (ss.flatMap Statement.references, (ss.map Statement.size).sum)) hlaid)
    refine (hsize ?_ 257 hs.symm).1 (by decide)
    intro r hm
    rw [references, hr] at hm
    obtain rfl := List.eq_of_mem_replicate hm
    exact ⟨0, rfl⟩

end ByteMachine.Assembly
