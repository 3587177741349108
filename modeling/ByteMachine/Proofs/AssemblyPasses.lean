import ByteMachine.Proofs.AssemblyLayout

namespace ByteMachine.Assembly

open Text

/-- Where in the code the statement with an index begins; behind the last, where the code ends. -/
def start (encodings : List (List UInt8)) (k : Nat) : Nat :=
  (encodings.take k).flatten.length

variable {encodings : List (List UInt8)}

theorem start_eq_sum (encodings : List (List UInt8)) (k : Nat) :
    start encodings k = ((encodings.map List.length).take k).sum := by
  rw [start, List.length_flatten, List.map_take]

theorem start_of_le {k : Nat} (h : encodings.length ≤ k) :
    start encodings k = encodings.flatten.length := by
  rw [start, List.take_of_length_le h]

theorem start_succ {k : Nat} {bytes : List UInt8} (hk : encodings[k]? = some bytes) :
    start encodings (k + 1) = start encodings k + bytes.length := by
  rw [start, start, List.take_add_one, hk, List.flatten_append, List.length_append,
    Option.toList_some, List.flatten_singleton]

theorem getElem?_start {k i : Nat} {bytes : List UInt8} (hk : encodings[k]? = some bytes)
    (hi : i < bytes.length) : encodings.flatten[start encodings k + i]? = bytes[i]? := by
  obtain ⟨hlt, rfl⟩ := List.getElem?_eq_some_iff.mp hk
  have hsplit : encodings.flatten =
      (encodings.take k).flatten ++ (encodings[k] ++ (encodings.drop (k + 1)).flatten) := by
    rw [← List.flatten_cons, List.getElem_cons_drop, ← List.flatten_append, List.take_append_drop]
  rw [hsplit, start, List.getElem?_append_right (Nat.le_add_right _ _), Nat.add_sub_cancel_left]
  exact List.getElem?_append_left hi

section

variable {name : List Char} {blocks : List (List (List Char) × Nat)}

theorem offset?_eq_some {n : Nat} (h : offset? name blocks = some n) :
    ∃ before block after, blocks = before ++ block :: after ∧ name ∈ block.1 ∧
      n = (before.map Prod.snd).sum := by
  induction blocks generalizing n with
  | nil => cases h
  | cons block blocks ih =>
    rw [offset?] at h
    split at h
    · next hm =>
      cases h
      exact ⟨[], block, blocks, rfl, hm, rfl⟩
    · obtain ⟨m, hm, rfl⟩ := Option.map_eq_some_iff.mp h
      obtain ⟨before, other, after, rfl, hother, rfl⟩ := ih hm
      exact ⟨block :: before, other, after, rfl, hother, by simp⟩

theorem offset?_append_cons {before after : List (List (List Char) × Nat)}
    {block : List (List Char) × Nat} (hb : ∀ other ∈ before, name ∉ other.1)
    (hm : name ∈ block.1) :
    offset? name (before ++ block :: after) = some (before.map Prod.snd).sum := by
  induction before with
  | nil => exact if_pos hm
  | cons other before ih =>
    obtain ⟨hother, hb⟩ := List.forall_mem_cons.mp hb
    rw [List.cons_append, offset?, if_neg hother, ih hb]
    simp

end

namespace Statement

variable {s : Statement} {labels : Labels} {bytes : List UInt8}

theorem length_slots_of_read {number : Nat} {text : List Char}
    (h : Statement.read number text = .ok s) :
    (s.directive.slots s.operands.length).length = s.operands.length := by
  obtain ⟨d, -, ha, rfl⟩ := read_eq_ok_iff.mp h
  cases d with
  | instruction i => exact ha.symm
  | data => exact List.length_replicate

theorem encode_eq_ok_iff :
    s.encode labels = .ok bytes ↔
      ∃ values, List.Forall₂ (fun x value ↦ resolve labels s.line x.1 x.2 = .ok value)
        ((s.directive.slots s.operands.length).zip s.operands) values ∧
        bytes = s.directive.opcode?.toList ++ values := by
  rw [encode, bind_eq_ok_iff]
  constructor
  · intro h
    obtain ⟨values, hv, h⟩ := h
    cases h
    exact ⟨values, mapM_eq_ok_iff.mp hv, rfl⟩
  · intro h
    obtain ⟨values, hv, rfl⟩ := h
    exact ⟨values, mapM_eq_ok_iff.mpr hv, rfl⟩

theorem length_encode (hs : (s.directive.slots s.operands.length).length = s.operands.length)
    (h : s.encode labels = .ok bytes) : bytes.length = s.size := by
  obtain ⟨values, hv, rfl⟩ := encode_eq_ok_iff.mp h
  have hl := hv.length_eq
  rw [List.length_zip, hs, Nat.min_self] at hl
  rw [List.length_append, ← hl, size]
  cases hd : s.directive with
  | instruction i =>
    rw [hd] at hs
    dsimp only
    rw [← hs, ← i.length_slots]
    rfl
  | data => exact Nat.zero_add _

theorem getElem?_encode {j : Nat} {slot : Slot} {text : List Char}
    (h : s.encode labels = .ok bytes)
    (hs : (s.directive.slots s.operands.length)[j]? = some slot)
    (ht : s.operands[j]? = some text) :
    ∃ value, resolve labels s.line slot text = .ok value ∧
      bytes[s.directive.opcode?.toList.length + j]? = some value := by
  obtain ⟨values, hv, rfl⟩ := encode_eq_ok_iff.mp h
  have hz : ((s.directive.slots s.operands.length).zip s.operands)[j]? = some (slot, text) :=
    List.getElem?_zip_eq_some.mpr ⟨hs, ht⟩
  obtain ⟨value, hvalue, hr⟩ := getElem?_of_forall₂ hv hz
  refine ⟨value, hr, ?_⟩
  rw [List.getElem?_append_right (Nat.le_add_right _ _), Nat.add_sub_cancel_left]
  exact hvalue

end Statement

theorem lookup_of_resolve {labels : Labels} {line : Nat} {name : List Char} {value : UInt8}
    (hi : isIdentifier name) (h : resolve labels line .immediate name = .ok value) :
    labels.lookup name = some value.toNat := by
  rw [resolve, resolveImmediate, if_pos hi] at h
  cases hl : labels.lookup name with
  | none =>
    rw [hl] at h
    cases h
  | some address =>
    rw [hl] at h
    dsimp only at h
    split at h
    · next ha =>
      cases h
      exact congrArg some (Nat.mod_eq_of_lt ha).symm
    · cases h

def statements (items : List Item) : List Statement :=
  items.filterMap Item.statement?

theorem sum_size_statements (items : List Item) :
    ((statements items).map Statement.size).sum = (items.map Item.size).sum := by
  induction items with
  | nil => rfl
  | cons item items ih =>
    obtain ⟨labels, _ | s⟩ := item
    · exact ih.trans (Nat.zero_add _).symm
    · exact congrArg (s.size + ·) ih

theorem read_of_mem_statements {source : List (List Char × Nat)} {items : List Item}
    (h : List.Forall₂ Reads source items) :
    ∀ s ∈ statements items, ∃ x ∈ source, Statement.read x.2 (splitLine x.1).2 = .ok s := by
  induction h with
  | nil => nofun
  | @cons x item source items hr _ ih =>
    have hrest : ∀ s ∈ statements items,
        ∃ y ∈ x :: source, Statement.read y.2 (splitLine y.1).2 = .ok s := by
      intro s hs
      obtain ⟨y, hy, ht⟩ := ih s hs
      exact ⟨y, List.mem_cons_of_mem _ hy, ht⟩
    intro s hs
    cases hr with
    | bare => exact hrest s hs
    | @statement line text number labels t hl _ ht =>
      obtain rfl | hs := List.mem_cons.mp hs
      · refine ⟨(line, number), List.mem_cons_self, ?_⟩
        rw [hl]
        exact ht
      · exact hrest s hs

theorem assemble_eq_ok_iff {source : List Char} {code : List UInt8} :
    assemble source = .ok code ↔
      ∃ layout encodings, Layout.ofSource source = .ok layout ∧
        List.Forall₂ (fun s bytes ↦ s.encode layout.labels = .ok bytes) layout.statements.toList
          encodings ∧
        code = encodings.flatten ∧ code.length ≤ 256 := by
  rw [assemble, bind_eq_ok_iff]
  constructor
  · intro h
    obtain ⟨layout, hl, h⟩ := h
    obtain ⟨encodings, he, h⟩ := bind_eq_ok_iff.mp h
    by_cases hle : encodings.flatten.length ≤ 256
    · rw [if_pos hle] at h
      cases h
      exact ⟨layout, encodings, hl, mapM_eq_ok_iff.mp he, rfl, hle⟩
    · rw [if_neg hle] at h
      cases h
  · intro h
    obtain ⟨layout, encodings, hl, he, rfl, hle⟩ := h
    exact ⟨layout, hl, bind_eq_ok_iff.mpr ⟨encodings, mapM_eq_ok_iff.mpr he, if_pos hle⟩⟩

theorem Reads.unique {x : List Char × Nat} {a b : Item} (ha : Reads x a) (hb : Reads x b) :
    a = b := by
  cases ha with
  | bare h =>
    cases hb with
    | bare h' =>
      cases h.symm.trans h'
      rfl
    | statement h' ht =>
      cases h.symm.trans h'
      exact absurd rfl ht
  | statement h ht hs =>
    cases hb with
    | bare h' =>
      cases h.symm.trans h'
      exact absurd rfl ht
    | statement h' _ hs' =>
      cases h.symm.trans h'
      cases hs.symm.trans hs'
      rfl

/-- A source on its way to its code: the items that its lines are read as, the layout that the first
pass makes of them and the encodings, one for each statement, that the second makes of the layout.
-/
structure Passes (source : List Char) (items : List Item) (layout : Layout)
    (encodings : List (List UInt8)) : Prop where
  reads : List.Forall₂ Reads ((lines source).zipIdx 1) items
  layout_eq : Layout.ofSource source = .ok layout
  statements_eq : layout.statements.toList = statements items
  encodes : List.Forall₂ (fun s bytes ↦ s.encode layout.labels = .ok bytes) (statements items)
    encodings

namespace Passes

variable {source : List Char} {items : List Item} {layout : Layout}

theorem of_assemble {code : List UInt8} (h : assemble source = .ok code) :
    ∃ items layout encodings, Passes source items layout encodings ∧
      code = encodings.flatten ∧ code.length ≤ 256 := by
  obtain ⟨layout, encodings, hl, he, hc, hle⟩ := assemble_eq_ok_iff.mp h
  obtain ⟨items, hr, -, rfl⟩ := Layout.ofSource_eq_ok_iff.mp hl
  have hs : (items.foldl Layout.place {}).statements.toList = statements items :=
    Layout.statements_foldl_place {} items
  exact ⟨items, _, encodings, ⟨hr, hl, hs, hs ▸ he⟩, hc, hle⟩

variable (h : Passes source items layout encodings)

include h

theorem placed : (items.flatMap Item.labels).Nodup ∧ layout = items.foldl Layout.place {} := by
  obtain ⟨others, hr, hd, rfl⟩ := Layout.ofSource_eq_ok_iff.mp h.layout_eq
  have hu : Relator.RightUnique Reads := fun _ _ _ ha hb ↦ ha.unique hb
  obtain rfl : items = others := hu.forall₂ h.reads hr
  exact ⟨hd, rfl⟩

theorem lookup_eq (name : List Char) :
    layout.labels.lookup name = offset? name (items.map fun item ↦ (item.labels, item.size)) := by
  obtain ⟨hd, rfl⟩ := h.placed
  rw [Layout.lookup_foldl_place {} hd]
  simp

theorem map_length : encodings.map List.length = (statements items).map Statement.size := by
  have hread := read_of_mem_statements h.reads
  have he := h.encodes
  clear h
  generalize statements items = ss at hread he ⊢
  induction he with
  | nil => rfl
  | @cons s bytes ss encodings hs _ ih =>
    obtain ⟨⟨x, -, ht⟩, hread⟩ := List.forall_mem_cons.mp hread
    rw [List.map_cons, List.map_cons, ih hread,
      Statement.length_encode (Statement.length_slots_of_read ht) hs]

theorem start_before {before after : List Item} {item : Item}
    (hi : items = before ++ item :: after) :
    start encodings (statements before).length = (before.map Item.size).sum := by
  have hs : statements items = statements before ++ statements (item :: after) := by
    rw [hi]
    exact List.filterMap_append
  have hl : (statements before).length = ((statements before).map Statement.size).length :=
    (List.length_map _).symm
  rw [start_eq_sum, h.map_length, hs, List.map_append, hl, List.take_left, sum_size_statements]

theorem lookup_of_mem {before after : List Item} {item : Item}
    (hi : items = before ++ item :: after) {name : List Char} (hm : name ∈ item.labels) :
    layout.labels.lookup name = some (start encodings (statements before).length) := by
  have hfresh : ∀ other ∈ before, name ∉ other.labels := by
    intro other ho hn
    have hd := h.placed.1
    rw [hi, List.flatMap_append, List.flatMap_cons] at hd
    obtain ⟨-, -, hne⟩ := List.nodup_append.mp hd
    exact hne name (List.mem_flatMap.mpr ⟨other, ho, hn⟩) name (List.mem_append_left _ hm) rfl
  rw [h.lookup_eq, h.start_before hi, hi, List.map_append, List.map_cons,
    offset?_append_cons (by simpa using hfresh) hm, List.map_map]
  rfl

theorem exists_of_lookup {name : List Char} {address : Nat}
    (hl : layout.labels.lookup name = some address) :
    ∃ before item after, items = before ++ item :: after ∧ name ∈ item.labels ∧
      address = start encodings (statements before).length := by
  have ho := hl
  rw [h.lookup_eq] at ho
  obtain ⟨blocks, block, rest, hb, hm, -⟩ := offset?_eq_some ho
  obtain ⟨before, tail, hi, rfl, ht⟩ := List.map_eq_append_iff.mp hb
  obtain ⟨item, after, rfl, rfl, -⟩ := List.map_eq_cons_iff.mp ht
  rw [h.lookup_of_mem hi hm] at hl
  cases hl
  exact ⟨before, item, after, hi, hm, rfl⟩

theorem getElem?_reference {k j : Nat} {s : Statement} {name : List Char}
    (hk : (statements items)[k]? = some s) (hj : s.operands[j]? = some name)
    (hs : (s.directive.slots s.operands.length)[j]? = some .immediate) (hi : isIdentifier name) :
    ∃ byte, encodings.flatten[start encodings k + s.directive.opcode?.toList.length + j]? =
        some byte ∧ layout.labels.lookup name = some byte.toNat := by
  obtain ⟨bytes, hb, he⟩ := getElem?_of_forall₂ h.encodes hk
  obtain ⟨byte, hr, hbyte⟩ := Statement.getElem?_encode he hs hj
  obtain ⟨hlt, -⟩ := List.getElem?_eq_some_iff.mp hbyte
  refine ⟨byte, ?_, lookup_of_resolve hi hr⟩
  rw [Nat.add_assoc, getElem?_start hb hlt, hbyte]

theorem length_flatten :
    encodings.flatten.length = ((statements items).map Statement.size).sum := by
  rw [List.length_flatten, h.map_length]

end Passes

/-- Where a source is assembled, its passes agree. The recorded address of a label is the number of
bytes emitted for the statements before it, a reference to the label is the place in the code at
which what stands behind the label begins, and the code is as long as the sizes say. -/
theorem passes_agree {source : List Char} {code : List UInt8} (h : assemble source = .ok code) :
    ∃ items layout encodings, Passes source items layout encodings ∧ code = encodings.flatten ∧
      (∀ before item after, items = before ++ item :: after → ∀ name ∈ item.labels,
        layout.labels.lookup name = some (start encodings (statements before).length)) ∧
      (∀ k s, (statements items)[k]? = some s → ∀ j name, s.operands[j]? = some name →
        (s.directive.slots s.operands.length)[j]? = some .immediate → isIdentifier name →
        ∃ before item after byte, items = before ++ item :: after ∧ name ∈ item.labels ∧
          code[start encodings k + s.directive.opcode?.toList.length + j]? = some byte ∧
          byte.toNat = start encodings (statements before).length) ∧
      (∀ k, encodings.length ≤ k → start encodings k = code.length) ∧
      code.length = ((statements items).map Statement.size).sum ∧ code.length ≤ 256 := by
  obtain ⟨items, layout, encodings, hp, rfl, hle⟩ := Passes.of_assemble h
  refine ⟨items, layout, encodings, hp, rfl, fun _ _ _ hi _ ↦ hp.lookup_of_mem hi, ?_,
    fun _ ↦ start_of_le, hp.length_flatten, hle⟩
  intro k s hk j name hj hs hi
  obtain ⟨byte, hb, hl⟩ := hp.getElem?_reference hk hj hs hi
  obtain ⟨before, item, after, he, hm, ha⟩ := hp.exists_of_lookup hl
  exact ⟨before, item, after, byte, he, hm, hb, ha⟩

/-- A label used before and behind its place, in an instruction and in data. -/
def referring : List Char :=
  "b: LDI R0,e\nDB b,e,7\ne:".toList

theorem passes_agree_referring :
    assemble referring = .ok [0x82, 0, 6, 0, 6, 7] ∧
      ∃ items layout encodings, Passes referring items layout encodings ∧
        [0x82, 0, 6, 0, 6, 7] = encodings.flatten ∧
        6 = ((statements items).map Statement.size).sum := by
  have hcode : assemble referring = .ok [0x82, 0, 6, 0, 6, 7] := by decide
  obtain ⟨items, layout, encodings, hp, he, -, -, -, hsum, -⟩ := passes_agree hcode
  exact ⟨hcode, items, layout, encodings, hp, he, hsum⟩

end ByteMachine.Assembly
