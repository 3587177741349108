import ByteMachine.Assembly
import ByteMachine.Proofs.Answers
import ByteMachine.Proofs.AssemblyLanguage

namespace ByteMachine.Assembly

open Text

namespace Statement

def word (text : List Char) : List Char :=
  text.takeWhile (!isBlank ·)

def upperWord (text : List Char) : List Char :=
  (word text).map Char.toUpper

def tailTexts (text : List Char) : List (List Char) :=
  operandTexts (text.dropWhile (!isBlank ·))

variable {number : Nat} {text : List Char} {s : Statement} {e : ProgramError}

theorem read_eq (number : Nat) (text : List Char) :
    Statement.read number text =
      match Directive.ofWord? (upperWord text) with
      | none => .error (.unknownMnemonic number (String.ofList (word text)))
      | some d =>
        if (tailTexts text).length = d.arity (tailTexts text).length then
          .ok ⟨number, d, tailTexts text⟩
        else .error (.operandCount number (String.ofList (upperWord text))
          (d.arity (tailTexts text).length) (tailTexts text).length) :=
  rfl

theorem read_eq_ok_iff :
    Statement.read number text = .ok s ↔
      ∃ d, Directive.ofWord? (upperWord text) = some d ∧
        (tailTexts text).length = d.arity (tailTexts text).length ∧
        s = ⟨number, d, tailTexts text⟩ := by
  rw [read_eq]
  cases Directive.ofWord? (upperWord text) with
  | none => simp
  | some d =>
    by_cases ha : (tailTexts text).length = d.arity (tailTexts text).length
    · simp [← ha, eq_comm]
    · simp [ha]

theorem read_eq_error_iff :
    Statement.read number text = .error e ↔
      Directive.ofWord? (upperWord text) = none ∧
          e = .unknownMnemonic number (String.ofList (word text)) ∨
        ∃ d, Directive.ofWord? (upperWord text) = some d ∧
          (tailTexts text).length ≠ d.arity (tailTexts text).length ∧
          e = .operandCount number (String.ofList (upperWord text))
            (d.arity (tailTexts text).length) (tailTexts text).length := by
  rw [read_eq]
  cases Directive.ofWord? (upperWord text) with
  | none => simp [eq_comm]
  | some d =>
    by_cases ha : (tailTexts text).length = d.arity (tailTexts text).length
    · simp [← ha]
    · simp [ha, eq_comm]

end Statement

structure Item where
  labels : List (List Char)
  statement? : Option Statement

def Item.size (item : Item) : Nat :=
  (item.statement?.map Statement.size).getD 0

inductive Reads : List Char × Nat → Item → Prop
  | bare {line : List Char} {number : Nat} {labels : List (List Char)}
      (h : splitLine line = (labels, [])) : Reads (line, number) ⟨labels, none⟩
  | statement {line text : List Char} {number : Nat} {labels : List (List Char)} {s : Statement}
      (h : splitLine line = (labels, text)) (ht : text ≠ [])
      (hs : Statement.read number text = .ok s) :
      Reads (line, number) ⟨labels, some s⟩

namespace Layout

def mark (layout : Layout) (label : List Char) : Layout :=
  { layout with labels := (label, layout.size) :: layout.labels }

def place (layout : Layout) (item : Item) : Layout :=
  match item.statement? with
  | none => item.labels.foldl mark layout
  | some s => (item.labels.foldl mark layout).addStatement s

variable {layout after : Layout} {number : Nat}

theorem addLabel_eq_ok_iff {label : List Char} :
    addLabel number layout label = .ok after ↔
      layout.labels.lookup label = none ∧ after = layout.mark label := by
  rw [addLabel]
  cases layout.labels.lookup label with
  | none => simp [mark, eq_comm]
  | some address => simp

theorem lookup_mark (label name : List Char) :
    (layout.mark label).labels.lookup name =
      if name = label then some layout.size else layout.labels.lookup name := by
  rw [mark, List.lookup_cons]
  by_cases h : name = label
  · rw [if_pos h, h, beq_self_eq_true]
  · rw [if_neg h, beq_false_of_ne h]

theorem lookup_foldl_mark (labels : List (List Char)) (name : List Char) :
    (labels.foldl mark layout).labels.lookup name =
      if name ∈ labels then some layout.size else layout.labels.lookup name := by
  induction labels generalizing layout with
  | nil => rfl
  | cons label labels ih =>
    have hs : (layout.mark label).size = layout.size := rfl
    rw [List.foldl_cons, ih, lookup_mark, hs]
    by_cases hm : name ∈ labels
    · rw [if_pos hm, if_pos (List.mem_cons_of_mem _ hm)]
    · rw [if_neg hm]
      by_cases hn : name = label
      · rw [if_pos hn, if_pos (hn ▸ List.mem_cons_self)]
      · rw [if_neg hn, if_neg (List.not_mem_cons_of_ne_of_not_mem hn hm)]

/-- Labels that may still be given, each of them once. -/
def Fresh (layout : Layout) (labels : List (List Char)) : Prop :=
  labels.Nodup ∧ ∀ name ∈ labels, layout.labels.lookup name = none

theorem fresh_cons {label : List Char} {labels : List (List Char)} :
    layout.Fresh (label :: labels) ↔
      layout.labels.lookup label = none ∧ (layout.mark label).Fresh labels := by
  constructor
  · intro h
    obtain ⟨hd, hn⟩ := h
    obtain ⟨hnot, hd⟩ := List.nodup_cons.mp hd
    refine ⟨hn label List.mem_cons_self, hd, fun name hm ↦ ?_⟩
    have hne : name ≠ label := fun he ↦ hnot (he ▸ hm)
    rw [lookup_mark, if_neg hne]
    exact hn name (List.mem_cons_of_mem _ hm)
  · intro h
    obtain ⟨hl, hd, hn⟩ := h
    have hne : ∀ name ∈ labels, name ≠ label := by
      rintro name hm rfl
      have hnone := hn name hm
      rw [lookup_mark, if_pos rfl] at hnone
      cases hnone
    refine ⟨List.nodup_cons.mpr ⟨fun hm ↦ hne label hm rfl, hd⟩, fun name hm ↦ ?_⟩
    obtain rfl | hm := List.mem_cons.mp hm
    · exact hl
    · have hnone := hn name hm
      rwa [lookup_mark, if_neg (hne name hm)] at hnone

theorem fresh_append {labels others : List (List Char)} :
    layout.Fresh (labels ++ others) ↔
      layout.Fresh labels ∧ (labels.foldl mark layout).Fresh others := by
  induction labels generalizing layout with
  | nil => exact ⟨fun h ↦ ⟨⟨.nil, nofun⟩, h⟩, And.right⟩
  | cons label labels ih =>
    rw [List.cons_append, fresh_cons, fresh_cons, ih, and_assoc]
    rfl

theorem foldlM_addLabel_eq_ok_iff {labels : List (List Char)} :
    labels.foldlM (addLabel number) layout = .ok after ↔
      layout.Fresh labels ∧ after = labels.foldl mark layout := by
  induction labels generalizing layout with
  | nil => exact ⟨fun h ↦ ⟨⟨.nil, nofun⟩, (Except.ok.inj h).symm⟩, fun h ↦ h.2 ▸ rfl⟩
  | cons label labels ih =>
    rw [List.foldlM_cons, bind_eq_ok_iff, fresh_cons]
    constructor
    · intro h
      obtain ⟨middle, hm, h⟩ := h
      obtain ⟨hl, rfl⟩ := addLabel_eq_ok_iff.mp hm
      obtain ⟨hf, rfl⟩ := ih.mp h
      exact ⟨⟨hl, hf⟩, rfl⟩
    · intro h
      obtain ⟨⟨hl, hf⟩, rfl⟩ := h
      exact ⟨layout.mark label, addLabel_eq_ok_iff.mpr ⟨hl, rfl⟩, ih.mpr ⟨hf, rfl⟩⟩

theorem addLine_eq (layout : Layout) (line : List Char) (number : Nat) :
    layout.addLine line number =
      ((splitLine line).1.foldlM (addLabel number) layout >>= fun marked ↦
        match (splitLine line).2 with
        | [] => .ok marked
        | text => Statement.read number text >>= fun s ↦ .ok (marked.addStatement s)) :=
  rfl

theorem addLine_eq_ok_iff {line : List Char} :
    layout.addLine line number = .ok after ↔
      ∃ item, Reads (line, number) item ∧ layout.Fresh item.labels ∧ after = layout.place item := by
  obtain ⟨⟨labels, text⟩, hs⟩ : ∃ x, splitLine line = x := ⟨_, rfl⟩
  rw [addLine_eq, hs, bind_eq_ok_iff]
  constructor
  · intro h
    obtain ⟨marked, hm, h⟩ := h
    obtain ⟨hf, rfl⟩ := foldlM_addLabel_eq_ok_iff.mp hm
    cases text with
    | nil =>
      cases h
      exact ⟨⟨labels, none⟩, .bare hs, hf, rfl⟩
    | cons c text =>
      obtain ⟨s, hr, h⟩ := bind_eq_ok_iff.mp h
      cases h
      exact ⟨⟨labels, some s⟩, .statement hs (List.cons_ne_nil c text) hr, hf, rfl⟩
  · intro h
    obtain ⟨item, hr, hf, rfl⟩ := h
    cases hr with
    | bare h =>
      cases hs.symm.trans h
      exact ⟨_, foldlM_addLabel_eq_ok_iff.mpr ⟨hf, rfl⟩, rfl⟩
    | statement h ht hr =>
      cases hs.symm.trans h
      refine ⟨_, foldlM_addLabel_eq_ok_iff.mpr ⟨hf, rfl⟩, ?_⟩
      cases text with
      | nil => exact absurd rfl ht
      | cons c text => exact bind_eq_ok_iff.mpr ⟨_, hr, rfl⟩

theorem fresh_place {item : Item} {labels : List (List Char)} :
    (layout.place item).Fresh labels ↔ (item.labels.foldl mark layout).Fresh labels := by
  obtain ⟨names, _ | s⟩ := item <;> rfl

theorem foldlM_addLine_eq_ok_iff {source : List (List Char × Nat)} :
    source.foldlM (fun layout x ↦ layout.addLine x.1 x.2) layout = .ok after ↔
      ∃ items, List.Forall₂ Reads source items ∧ layout.Fresh (items.flatMap Item.labels) ∧
        after = items.foldl place layout := by
  induction source generalizing layout with
  | nil =>
    constructor
    · intro h
      exact ⟨[], .nil, ⟨.nil, nofun⟩, (Except.ok.inj h).symm⟩
    · intro h
      obtain ⟨items, hr, -, rfl⟩ := h
      cases hr
      rfl
  | cons x source ih =>
    rw [List.foldlM_cons, bind_eq_ok_iff]
    constructor
    · intro h
      obtain ⟨middle, hm, h⟩ := h
      obtain ⟨item, hr, hf, rfl⟩ := addLine_eq_ok_iff.mp hm
      obtain ⟨items, hrs, hfs, rfl⟩ := ih.mp h
      exact ⟨item :: items, .cons hr hrs, fresh_append.mpr ⟨hf, fresh_place.mp hfs⟩, rfl⟩
    · intro h
      obtain ⟨items, hrs, hf, rfl⟩ := h
      cases hrs with
      | @cons _ item _ items hr hrs =>
        obtain ⟨hf, hfs⟩ := fresh_append.mp hf
        exact ⟨layout.place item, addLine_eq_ok_iff.mpr ⟨item, hr, hf, rfl⟩,
          ih.mpr ⟨items, hrs, fresh_place.mpr hfs, rfl⟩⟩

theorem ofSource_eq_ok_iff {source : List Char} :
    ofSource source = .ok layout ↔
      ∃ items, List.Forall₂ Reads ((lines source).zipIdx 1) items ∧
        (items.flatMap Item.labels).Nodup ∧ layout = items.foldl place {} := by
  have hfresh {names : List (List Char)} : Layout.Fresh {} names ↔ names.Nodup :=
    ⟨And.left, fun h ↦ ⟨h, fun _ _ ↦ rfl⟩⟩
  simp only [← hfresh]
  exact foldlM_addLine_eq_ok_iff

theorem foldl_mark (layout : Layout) (labels : List (List Char)) :
    (labels.foldl mark layout).statements = layout.statements ∧
      (labels.foldl mark layout).size = layout.size := by
  induction labels generalizing layout with
  | nil => exact ⟨rfl, rfl⟩
  | cons label labels ih => exact ih (layout.mark label)

theorem statements_place (layout : Layout) (item : Item) :
    (layout.place item).statements.toList =
      layout.statements.toList ++ item.statement?.toList := by
  obtain ⟨labels, _ | s⟩ := item
  · rw [place, (foldl_mark layout labels).1]
    exact (List.append_nil _).symm
  · change ((labels.foldl mark layout).statements.push s).toList = _
    rw [(foldl_mark layout labels).1, Array.toList_push]
    rfl

theorem size_place (layout : Layout) (item : Item) :
    (layout.place item).size = layout.size + item.size := by
  obtain ⟨labels, _ | s⟩ := item
  · exact (foldl_mark layout labels).2
  · change (labels.foldl mark layout).size + s.size = _
    rw [(foldl_mark layout labels).2]
    rfl

theorem lookup_place (layout : Layout) (item : Item) (name : List Char) :
    (layout.place item).labels.lookup name =
      if name ∈ item.labels then some layout.size else layout.labels.lookup name := by
  rw [← lookup_foldl_mark]
  obtain ⟨labels, _ | s⟩ := item <;> rfl

theorem statements_foldl_place (layout : Layout) (items : List Item) :
    (items.foldl place layout).statements.toList =
      layout.statements.toList ++ items.filterMap Item.statement? := by
  induction items generalizing layout with
  | nil => exact (List.append_nil _).symm
  | cons item items ih =>
    rw [List.foldl_cons, ih, statements_place, List.append_assoc]
    obtain ⟨labels, _ | s⟩ := item <;> rfl

theorem offset?_eq_none {name : List Char} {blocks : List (List (List Char) × Nat)}
    (h : ∀ block ∈ blocks, name ∉ block.1) : offset? name blocks = none := by
  induction blocks with
  | nil => rfl
  | cons block blocks ih =>
    rw [offset?, if_neg (h block List.mem_cons_self),
      ih fun other hm ↦ h other (List.mem_cons_of_mem _ hm)]
    rfl

theorem lookup_foldl_place (layout : Layout) {items : List Item}
    (h : (items.flatMap Item.labels).Nodup) (name : List Char) :
    (items.foldl place layout).labels.lookup name =
      ((offset? name (items.map fun item ↦ (item.labels, item.size))).map (layout.size + ·)).or
        (layout.labels.lookup name) := by
  induction items generalizing layout with
  | nil => rfl
  | cons item items ih =>
    obtain ⟨_, hd, hne⟩ := List.nodup_append.mp h
    rw [List.foldl_cons, ih _ hd, lookup_place, size_place, List.map_cons, offset?]
    by_cases hm : name ∈ item.labels
    -- The table finds what came last, the offsets what comes first: a label must not come twice.
    · have hnone : offset? name (items.map fun item ↦ (item.labels, item.size)) = none := by
        refine offset?_eq_none fun block hb hn ↦ ?_
        obtain ⟨other, ho, rfl⟩ := List.mem_map.mp hb
        exact hne name hm name (List.mem_flatMap.mpr ⟨other, ho, hn⟩) rfl
      rw [if_pos hm, if_pos hm, hnone]
      rfl
    · rw [if_neg hm, if_neg hm, Option.map_map]
      congr 2
      funext n
      exact Nat.add_assoc layout.size item.size n

end Layout

end ByteMachine.Assembly
