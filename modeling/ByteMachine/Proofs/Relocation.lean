import ByteMachine.Proofs.AssemblyRows
import ByteMachine.Proofs.OperandSyntax

namespace ByteMachine.Assembly

open Text

def Reference.IsLabel (r : Reference) : Prop :=
  r.slot = .immediate ∧ isIdentifier r.text

instance (r : Reference) : Decidable r.IsLabel :=
  inferInstanceAs (Decidable (r.slot = .immediate ∧ isIdentifier r.text))

/-- Of each byte of a statement, whether it comes from a label. -/
def Statement.marks (s : Statement) : List Bool :=
  s.directive.opcode?.toList.map (fun _ ↦ false) ++ s.references.map fun r ↦ decide r.IsLabel

/-- Bytes in two places: those that are marked are greater by the distance, the others are equal. -/
inductive Moved (distance : Nat) : List Bool → List UInt8 → List UInt8 → Prop
  | nil : Moved distance [] [] []
  | fixed {marks : List Bool} {bytes moved : List UInt8} (byte : UInt8)
      (h : Moved distance marks bytes moved) :
      Moved distance (false :: marks) (byte :: bytes) (byte :: moved)
  | label {marks : List Bool} {bytes moved : List UInt8} {byte grown : UInt8}
      (hg : grown.toNat = byte.toNat + distance) (h : Moved distance marks bytes moved) :
      Moved distance (true :: marks) (byte :: bytes) (grown :: moved)

namespace Moved

variable {distance : Nat} {marks others : List Bool} {bytes moved code rest : List UInt8}

theorem length_eq (h : Moved distance marks bytes moved) : moved.length = bytes.length := by
  induction h with
  | nil => rfl
  | fixed _ _ ih | label _ _ ih => exact congrArg Nat.succ ih

theorem append (h : Moved distance marks bytes moved) (ho : Moved distance others code rest) :
    Moved distance (marks ++ others) (bytes ++ code) (moved ++ rest) := by
  induction h with
  | nil => exact ho
  | fixed byte _ ih => exact .fixed byte ih
  | label hg _ ih => exact .label hg ih

theorem refl (distance : Nat) (bytes : List UInt8) :
    Moved distance (bytes.map fun _ ↦ false) bytes bytes := by
  induction bytes with
  | nil => exact .nil
  | cons byte bytes ih => exact .fixed byte ih

end Moved

def emit (labels : Labels) (ss : List Statement) : Except ProgramError (List UInt8) :=
  ss.mapM (·.encode labels) >>= fun encodings ↦ .ok encodings.flatten

variable {labels table : Labels} {ss ts : List Statement} {code x y z : List UInt8}

theorem emit_append (labels : Labels) (ss ts : List Statement) :
    emit labels (ss ++ ts) =
      emit labels ss >>= fun x ↦ emit labels ts >>= fun y ↦ .ok (x ++ y) := by
  rw [emit, List.mapM_append, emit, emit]
  cases ss.mapM (·.encode labels) with
  | error e => rfl
  | ok encodings =>
    cases ts.mapM (·.encode labels) with
    | error e => rfl
    | ok others => exact congrArg Except.ok List.flatten_append

theorem emit_append_eq_ok_iff :
    emit labels (ss ++ ts) = .ok code ↔
      ∃ x y, emit labels ss = .ok x ∧ emit labels ts = .ok y ∧ code = x ++ y := by
  rw [emit_append, bind_eq_ok_iff]
  refine exists_congr fun x ↦ ?_
  rw [bind_eq_ok_iff, ← exists_and_left]
  refine exists_congr fun y ↦ ?_
  rw [Except.ok.injEq, eq_comm (a := x ++ y)]

theorem emit_singleton (labels : Labels) (s : Statement) : emit labels [s] = s.encode labels := by
  rw [emit, List.mapM_cons]
  cases s.encode labels with
  | error e => rfl
  | ok bytes => exact congrArg Except.ok (List.append_nil bytes)

theorem emit_cons_eq_ok_iff {s : Statement} :
    emit labels (s :: ss) = .ok code ↔
      ∃ x y, s.encode labels = .ok x ∧ emit labels ss = .ok y ∧ code = x ++ y := by
  rw [← emit_singleton, ← emit_append_eq_ok_iff]
  rfl

theorem exists_emit_iff :
    (∃ code, emit labels ss = .ok code) ↔
      ∀ r ∈ ss.flatMap Statement.references, ∃ value, Accepted labels r.slot r.text value := by
  rw [← mapM_encode_eq_ok_iff]
  cases h : ss.mapM (·.encode labels) <;> simp [emit, h, bind, Except.bind]

theorem emit_renumber (number : Nat → Nat) :
    emit labels (ss.map (·.renumber number)) = .ok code ↔ emit labels ss = .ok code := by
  have htranslate : emit labels (ss.map (·.renumber number)) =
      translate (·.renumber number) id (emit labels ss) := by
    rw [emit, emit, mapM_translate (Statement.encode_renumber number labels), List.map_id_fun]
    refine translate_bind (fun encodings ↦ ?_) _
    rfl
  simp [htranslate, translate_eq_ok_iff]

theorem assemble_eq_ok_iff_emit {source : List Char} :
    assemble source = .ok code ↔
      ∃ layout, Layout.ofSource source = .ok layout ∧
        emit layout.labels layout.statements.toList = .ok code ∧ code.length ≤ 256 := by
  rw [assemble_eq_ok_iff]
  refine exists_congr fun layout ↦ ?_
  simp only [← mapM_eq_ok_iff, emit, bind_eq_ok_iff, Except.ok.injEq]
  constructor
  · rintro ⟨encodings, hl, he, rfl, hle⟩
    exact ⟨hl, ⟨encodings, he, rfl⟩, hle⟩
  · rintro ⟨hl, ⟨encodings, he, rfl⟩, hle⟩
    exact ⟨encodings, hl, he, rfl, hle⟩

theorem Statement.encode_eq_ok_iff_accepted {s : Statement} :
    s.encode labels = .ok code ↔
      ∃ values, List.Forall₂ (fun r value ↦ Accepted labels r.slot r.text value) s.references
        values ∧ code = s.directive.opcode?.toList ++ values := by
  rw [encode_eq_ok_iff]
  simp only [references, List.forall₂_map_left_iff, resolve_eq_ok_iff]

theorem Accepted.relabel {slot : Slot} {text : List Char} {value : UInt8}
    (h : Accepted labels slot text value)
    (hl : slot = .immediate → isIdentifier text → ∀ address,
      labels.lookup text = some address → table.lookup text = some address) :
    Accepted table slot text value := by
  cases h with
  | register hletter hd => exact .register hletter hd
  | decimal hd => exact .decimal hd
  | hexadecimal hd => exact .hexadecimal hd
  | binary hd => exact .binary hd
  | label hi hlookup ha => exact .label hi (hl rfl hi _ hlookup) ha

theorem Accepted.mono {slot : Slot} {text : List Char} {value : UInt8}
    (h : Accepted labels slot text value)
    (hl : ∀ name address, labels.lookup name = some address → table.lookup name = some address) :
    Accepted table slot text value :=
  h.relabel fun _ _ ↦ hl text

theorem Accepted.of_not_isLabel {r : Reference} {value : UInt8}
    (h : Accepted labels r.slot r.text value) (hr : ¬ r.IsLabel) :
    Accepted table r.slot r.text value :=
  h.relabel fun hs hi ↦ absurd ⟨hs, hi⟩ hr

theorem Accepted.lookup_eq {r : Reference} {value : UInt8}
    (h : Accepted labels r.slot r.text value) (hr : r.IsLabel) :
    labels.lookup r.text = some value.toNat := by
  obtain ⟨hs, hi⟩ := hr
  rw [hs] at h
  have hresolve : resolve labels r.line .immediate r.text = .ok value := resolve_eq_ok_iff.mpr h
  exact lookup_of_resolve hi hresolve

theorem emit_mono (h : emit labels ss = .ok code)
    (hl : ∀ name address, labels.lookup name = some address → table.lookup name = some address) :
    emit table ss = .ok code := by
  induction ss generalizing code with
  | nil => exact h
  | cons s ss ih =>
    obtain ⟨x, y, hs, hss, rfl⟩ := emit_cons_eq_ok_iff.mp h
    obtain ⟨values, hv, rfl⟩ := Statement.encode_eq_ok_iff_accepted.mp hs
    exact emit_cons_eq_ok_iff.mpr ⟨_, y, Statement.encode_eq_ok_iff_accepted.mpr
      ⟨values, hv.imp fun _ _ ha ↦ ha.mono hl, rfl⟩, ih hss, rfl⟩

section

variable {distance : Nat}

/-- The label that is referenced, if one is, still has an address in memory at a distance. -/
def InReach (labels : Labels) (distance : Nat) (r : Reference) : Prop :=
  r.IsLabel → ∃ address ∈ labels.lookup r.text, address + distance ≤ 255

/-- A table has the labels of another one, each at the distance from where this has it. -/
def Shifted (distance : Nat) (labels table : Labels) : Prop :=
  ∀ name address, labels.lookup name = some address →
    table.lookup name = some (address + distance)

variable (hl : Shifted distance labels table)

include hl

theorem inReach_of_accepted {r : Reference} {value grown : UInt8}
    (hv : Accepted labels r.slot r.text value) (hg : Accepted table r.slot r.text grown) :
    InReach labels distance r := by
  intro hr
  have hgrown := hl _ _ (hv.lookup_eq hr)
  rw [hg.lookup_eq hr, Option.some.injEq] at hgrown
  exact ⟨value.toNat, hv.lookup_eq hr, hgrown ▸ Nat.le_of_lt_succ grown.toNat_lt⟩

theorem accepted_of_inReach {r : Reference} {value : UInt8}
    (hv : Accepted labels r.slot r.text value) (hr : r.IsLabel) (hi : InReach labels distance r) :
    ∃ grown, Accepted table r.slot r.text grown ∧ grown.toNat = value.toNat + distance := by
  obtain ⟨address, ha, hle⟩ := hi hr
  have hlookup := hv.lookup_eq hr
  cases hlookup.symm.trans ha
  refine ⟨UInt8.ofNat (value.toNat + distance), ?_, ?_⟩
  · rw [hr.1]
    exact .label hr.2 (hl _ _ hlookup) hle
  · rw [UInt8.toNat_ofNat', Nat.mod_eq_of_lt (Nat.lt_succ_of_le hle)]

theorem moved_of_accepted {rs : List Reference} {values : List UInt8}
    (hv : List.Forall₂ (fun r value ↦ Accepted labels r.slot r.text value) rs values)
    (hr : ∀ r ∈ rs, InReach labels distance r) :
    ∃ moved, List.Forall₂ (fun r value ↦ Accepted table r.slot r.text value) rs moved ∧
      Moved distance (rs.map fun r ↦ decide r.IsLabel) values moved := by
  induction hv with
  | nil => exact ⟨[], .nil, .nil⟩
  | @cons r value rs values ha _ ih =>
    obtain ⟨hreach, hr⟩ := List.forall_mem_cons.mp hr
    obtain ⟨moved, hm, hmoved⟩ := ih hr
    rw [List.map_cons]
    by_cases hlabel : r.IsLabel
    · obtain ⟨grown, hg, hsum⟩ := accepted_of_inReach hl ha hlabel hreach
      rw [decide_eq_true hlabel]
      exact ⟨grown :: moved, .cons hg hm, .label hsum hmoved⟩
    · rw [decide_eq_false hlabel]
      exact ⟨value :: moved, .cons (ha.of_not_isLabel hlabel) hm, .fixed value hmoved⟩

/-- The run lemma of the second pass at a distance, by induction on the statements. -/
theorem emit_moved (hy : emit labels ss = .ok y)
    (hr : ∀ r ∈ ss.flatMap Statement.references, InReach labels distance r) :
    ∃ moved, emit table ss = .ok moved ∧
      Moved distance (ss.flatMap Statement.marks) y moved := by
  induction ss generalizing y with
  | nil =>
    cases hy
    exact ⟨[], rfl, .nil⟩
  | cons s ss ih =>
    obtain ⟨bytes, rest, hs, hss, rfl⟩ := emit_cons_eq_ok_iff.mp hy
    obtain ⟨values, hv, rfl⟩ := Statement.encode_eq_ok_iff_accepted.mp hs
    rw [List.flatMap_cons, List.forall_mem_append] at hr
    obtain ⟨moved, hm, hmoved⟩ := moved_of_accepted hl hv hr.1
    obtain ⟨others, ho, hothers⟩ := ih hss hr.2
    have hencode := Statement.encode_eq_ok_iff_accepted.mpr ⟨moved, hm, rfl⟩
    exact ⟨_, emit_cons_eq_ok_iff.mpr ⟨_, others, hencode, ho, rfl⟩,
      ((Moved.refl distance _).append hmoved).append hothers⟩

theorem inReach_of_emit (hy : emit labels ss = .ok y) (hz : emit table ss = .ok z) :
    ∀ r ∈ ss.flatMap Statement.references, InReach labels distance r := by
  intro r hr
  obtain ⟨value, hv⟩ := exists_emit_iff.mp ⟨y, hy⟩ r hr
  obtain ⟨grown, hg⟩ := exists_emit_iff.mp ⟨z, hz⟩ r hr
  exact inReach_of_accepted hl hv hg

end

def Item.renumber (number : Nat → Nat) (item : Item) : Item :=
  { item with statement? := item.statement?.map (·.renumber number) }

section

variable {number : Nat → Nat}

theorem Reads.renumber {x : List Char × Nat} {item : Item} (h : Reads x item) :
    Reads (Prod.map id number x) (item.renumber number) := by
  cases h with
  | bare h => exact .bare h
  | statement h ht hs =>
    refine .statement h ht ?_
    rw [Statement.read_renumber, hs]
    rfl

theorem block_renumber (item : Item) :
    ((item.renumber number).labels, (item.renumber number).size) = (item.labels, item.size) := by
  obtain ⟨labels, _ | s⟩ := item <;> rfl

theorem labels_renumber (number : Nat → Nat) (items : List Item) :
    (items.map (·.renumber number)).flatMap Item.labels = items.flatMap Item.labels := by
  rw [List.flatMap_map]
  rfl

theorem statements_renumber (items : List Item) :
    statements (items.map (·.renumber number)) = (statements items).map (·.renumber number) := by
  rw [statements, List.filterMap_map, statements, List.map_filterMap]
  rfl

end

namespace Layout

def Apart (front back : Layout) : Prop :=
  ∀ name, front.labels.lookup name = none ∨ back.labels.lookup name = none

structure Extends (front joined : Layout) : Prop where
  statements : front.statements.toList <+: joined.statements.toList
  labels : ∀ name address, front.labels.lookup name = some address →
    joined.labels.lookup name = some address

/-- A layout behind another one, but for the numbers of its lines. -/
structure Joined (front back joined : Layout) : Prop extends Extends front joined where
  rest : ∃ number, joined.statements.toList =
    front.statements.toList ++ back.statements.toList.map (·.renumber number)
  shifted : Shifted front.size back.labels joined.labels

variable {front back joined : Layout} {items : List Item} {a : List Char}
  {rows : List (List Char)} {n : Nat} {x : List UInt8}

theorem addRows_eq_ok_iff :
    front.addRows n rows = .ok joined ↔
      ∃ items, List.Forall₂ Reads (rows.zipIdx n) items ∧
        front.Fresh (items.flatMap Item.labels) ∧ joined = items.foldl place front :=
  foldlM_addLine_eq_ok_iff

theorem reads_zipIdx_add (h : List.Forall₂ Reads (rows.zipIdx n) items) (k : Nat) :
    List.Forall₂ Reads (rows.zipIdx (k + n)) (items.map (·.renumber (· + k))) := by
  rw [← List.map_snd_add_zipIdx_eq_zipIdx, List.forall₂_map_left_iff, List.forall₂_map_right_iff]
  exact h.imp fun _ _ hr ↦ hr.renumber

theorem size_foldl_place (layout : Layout) (items : List Item) :
    (items.foldl place layout).size = layout.size + (items.map Item.size).sum := by
  induction items generalizing layout with
  | nil => rfl
  | cons item items ih =>
    rw [List.foldl_cons, ih, size_place, List.map_cons, List.sum_cons, Nat.add_assoc]

theorem extends_foldl_place (h : front.Fresh (items.flatMap Item.labels)) :
    Extends front (items.foldl place front) := by
  refine ⟨?_, fun name address hl ↦ ?_⟩
  · rw [statements_foldl_place]
    exact List.prefix_append _ _
  · have hnone : offset? name (items.map fun item ↦ (item.labels, item.size)) = none := by
      refine offset?_eq_none fun block hb hm ↦ ?_
      obtain ⟨item, hi, rfl⟩ := List.mem_map.mp hb
      have hlookup := h.2 name (List.mem_flatMap.mpr ⟨item, hi, hm⟩)
      rw [hl] at hlookup
      cases hlookup
    rw [lookup_foldl_place front h.1, hnone]
    exact hl

theorem extends_of_addRows (h : front.addRows n rows = .ok joined) : Extends front joined := by
  obtain ⟨items, -, hf, rfl⟩ := addRows_eq_ok_iff.mp h
  exact extends_foldl_place hf

theorem apart_iff_fresh (hd : (items.flatMap Item.labels).Nodup) :
    Apart front (items.foldl place {}) ↔ front.Fresh (items.flatMap Item.labels) := by
  have hk : (items.foldl place {}).Knows (items.flatMap Item.labels) := knows_empty.foldl_place
  have hnot : ∀ name, name ∉ items.flatMap Item.labels ↔
      (items.foldl place {}).labels.lookup name = none := fun name ↦ (hk name).symm
  constructor
  · intro h
    refine ⟨hd, fun name hm ↦ (h name).resolve_right fun hn ↦ (hnot name).mpr hn hm⟩
  · intro h name
    by_cases hm : name ∈ items.flatMap Item.labels
    · exact .inl (h.2 name hm)
    · exact .inr ((hnot name).mp hm)

theorem joined_foldl_place (number : Nat → Nat) (h : front.Fresh (items.flatMap Item.labels)) :
    Joined front (items.foldl place {}) ((items.map (·.renumber number)).foldl place front) := by
  have hblocks : (items.map (·.renumber number)).map (fun item ↦ (item.labels, item.size)) =
      items.map fun item ↦ (item.labels, item.size) := by
    rw [List.map_map]
    exact List.map_congr_left fun item _ ↦ block_renumber item
  have hd := h.1
  rw [← labels_renumber number] at h
  refine ⟨extends_foldl_place h, ⟨number, ?_⟩, fun name address hl ↦ ?_⟩
  · rw [statements_foldl_place, statements_foldl_place]
    exact congrArg (front.statements.toList ++ ·) (statements_renumber items)
  · rw [lookup_foldl_place {} hd] at hl
    rw [lookup_foldl_place front h.1, hblocks]
    cases ho : offset? name (items.map fun item ↦ (item.labels, item.size)) with
    | none =>
      rw [ho] at hl
      cases hl
    | some offset =>
      rw [ho] at hl
      cases hl
      refine congrArg some ?_
      change front.size + offset = 0 + offset + front.size
      omega

/-- Rows that can be laid out on their own can be laid out behind another layout, unless they give a
label that is there already. -/
theorem addRows_behind (hb : addRows {} n rows = .ok back) (front : Layout) (k : Nat) :
    (Apart front back → ∃ joined, front.addRows (k + n) rows = .ok joined) ∧
      ∀ joined, front.addRows (k + n) rows = .ok joined →
        Apart front back ∧ Joined front back joined := by
  obtain ⟨items, hr, hf, rfl⟩ := addRows_eq_ok_iff.mp hb
  have hshifted := reads_zipIdx_add hr k
  constructor
  · intro ha
    have hfresh := (apart_iff_fresh hf.1).mp ha
    rw [← labels_renumber (· + k)] at hfresh
    exact ⟨_, addRows_eq_ok_iff.mpr ⟨_, hshifted, hfresh, rfl⟩⟩
  · intro joined hj
    obtain ⟨others, ho, hfresh, rfl⟩ := addRows_eq_ok_iff.mp hj
    have hu : Relator.RightUnique Reads := fun _ _ _ ha hb ↦ ha.unique hb
    obtain rfl : items.map (·.renumber (· + k)) = others := hu.forall₂ hshifted ho
    rw [labels_renumber] at hfresh
    exact ⟨(apart_iff_fresh hf.1).mpr hfresh, joined_foldl_place _ hfresh⟩

theorem ofSource_append (ha : ofSource a = .ok front) (b : List Char) :
    ofSource (a ++ '\n' :: b) = front.addRows ((a.splitOn '\n').length + 1) (b.splitOn '\n') := by
  rw [ofSource_eq_addRows] at ha
  rw [ofSource_eq_addRows, List.splitOn_append_cons_self, addRows_append, ha, Nat.add_comm]
  rfl

theorem size_eq_length (hl : ofSource a = .ok front)
    (hx : emit front.labels front.statements.toList = .ok x) : front.size = x.length := by
  obtain ⟨items, hr, -, rfl⟩ := ofSource_eq_ok_iff.mp hl
  have hs : (items.foldl place {}).statements.toList = Assembly.statements items :=
    statements_foldl_place {} items
  rw [hs] at hx
  obtain ⟨encodings, he, hx⟩ := bind_eq_ok_iff.mp hx
  cases hx
  have hp : Passes a items _ encodings := ⟨hr, hl, hs, mapM_eq_ok_iff.mp he⟩
  rw [hp.length_flatten, sum_size_statements, size_foldl_place]
  exact Nat.zero_add _

theorem Extends.prefix_of_emit (h : Extends front joined)
    (hx : emit front.labels front.statements.toList = .ok x)
    (hc : emit joined.labels joined.statements.toList = .ok code) : x <+: code := by
  obtain ⟨rest, hrest⟩ := h.statements
  rw [← hrest] at hc
  obtain ⟨z, w, hz, -, rfl⟩ := emit_append_eq_ok_iff.mp hc
  cases hz.symm.trans (emit_mono hx h.labels)
  exact List.prefix_append x w

namespace Joined

variable (h : Joined front back joined)
  (hy : emit back.labels back.statements.toList = .ok y)

include h hy

theorem emit_eq (hx : emit front.labels front.statements.toList = .ok x)
    (hr : ∀ r ∈ back.statements.toList.flatMap Statement.references,
      InReach back.labels front.size r) :
    ∃ moved, emit joined.labels joined.statements.toList = .ok (x ++ moved) ∧
      Moved front.size (back.statements.toList.flatMap Statement.marks) y moved := by
  obtain ⟨number, hs⟩ := h.rest
  obtain ⟨moved, hm, hmoved⟩ := emit_moved h.shifted hy hr
  rw [hs]
  exact ⟨moved, emit_append_eq_ok_iff.mpr
    ⟨x, moved, emit_mono hx h.labels, (emit_renumber number).mpr hm, rfl⟩, hmoved⟩

theorem inReach (hc : emit joined.labels joined.statements.toList = .ok code) :
    ∀ r ∈ back.statements.toList.flatMap Statement.references,
      InReach back.labels front.size r := by
  obtain ⟨number, hs⟩ := h.rest
  rw [hs] at hc
  obtain ⟨-, z, -, hz, -⟩ := emit_append_eq_ok_iff.mp hc
  exact inReach_of_emit h.shifted hy ((emit_renumber number).mp hz)

end Joined

end Layout

/-- A source behind another. If both are assembled on their own, so are they together, unless both
give one label, memory does not hold them or a label that the second uses comes to stand too far
back. The code is that of the first and then that of the second, in which what comes from labels is
greater by the length of the first. Whatever is put behind a source, its bytes stay what they are.
-/
theorem assemble_append {a b : List Char} {x y : List UInt8} (ha : assemble a = .ok x)
    (hb : assemble b = .ok y) :
    ∃ front back, Layout.ofSource a = .ok front ∧ Layout.ofSource b = .ok back ∧
      ((∃ code, assemble (a ++ '\n' :: b) = .ok code) ↔
        (∀ name, front.labels.lookup name = none ∨ back.labels.lookup name = none) ∧
        x.length + y.length ≤ 256 ∧
        ∀ r ∈ back.statements.toList.flatMap Statement.references, r.IsLabel →
          ∃ address ∈ back.labels.lookup r.text, address + x.length ≤ 255) ∧
      (∀ code, assemble (a ++ '\n' :: b) = .ok code →
        ∃ moved, code = x ++ moved ∧
          Moved x.length (back.statements.toList.flatMap Statement.marks) y moved) ∧
      ∀ more code, assemble (a ++ '\n' :: more) = .ok code → x <+: code := by
  obtain ⟨front, hfront, hx, -⟩ := assemble_eq_ok_iff_emit.mp ha
  obtain ⟨back, hback, hy, -⟩ := assemble_eq_ok_iff_emit.mp hb
  have hsize := Layout.size_eq_length hfront hx
  have hrows := hback
  rw [Layout.ofSource_eq_addRows] at hrows
  obtain ⟨hadd, hadded⟩ := Layout.addRows_behind hrows front (a.splitOn '\n').length
  -- What is assembled meets the conditions, and what meets them is emitted as is said.
  have hemit : ∀ code, assemble (a ++ '\n' :: b) = .ok code →
      front.Apart back ∧
        (∀ r ∈ back.statements.toList.flatMap Statement.references,
          InReach back.labels x.length r) ∧
        code.length ≤ 256 ∧ ∃ moved, code = x ++ moved ∧
          Moved x.length (back.statements.toList.flatMap Statement.marks) y moved := by
    intro code hc
    obtain ⟨joined, hjoined, hcode, hle⟩ := assemble_eq_ok_iff_emit.mp hc
    rw [Layout.ofSource_append hfront] at hjoined
    obtain ⟨hapart, hj⟩ := hadded joined hjoined
    have hreach := hj.inReach hy hcode
    obtain ⟨moved, hm, hmoved⟩ := hj.emit_eq hy hx hreach
    cases hcode.symm.trans hm
    rw [hsize] at hreach hmoved
    exact ⟨hapart, hreach, hle, moved, rfl, hmoved⟩
  refine ⟨front, back, hfront, hback, ⟨?_, ?_⟩, fun code hc ↦ ?_, fun more code hc ↦ ?_⟩
  · rintro ⟨code, hc⟩
    obtain ⟨hapart, hreach, hle, moved, rfl, hmoved⟩ := hemit code hc
    rw [List.length_append, hmoved.length_eq] at hle
    exact ⟨hapart, hle, hreach⟩
  · rintro ⟨hapart, hle, hreach⟩
    obtain ⟨joined, hjoined⟩ := hadd hapart
    obtain ⟨-, hj⟩ := hadded joined hjoined
    obtain ⟨moved, hm, hmoved⟩ := hj.emit_eq hy hx (hsize ▸ hreach)
    rw [← Layout.ofSource_append hfront] at hjoined
    refine ⟨x ++ moved, assemble_eq_ok_iff_emit.mpr ⟨joined, hjoined, hm, ?_⟩⟩
    rwa [List.length_append, hmoved.length_eq]
  · obtain ⟨-, -, -, hmoved⟩ := hemit code hc
    exact hmoved
  · obtain ⟨joined, hjoined, hcode, -⟩ := assemble_eq_ok_iff_emit.mp hc
    rw [Layout.ofSource_append hfront] at hjoined
    exact (Layout.extends_of_addRows hjoined).prefix_of_emit hx hcode

def ending : List Char :=
  "LDI R0,e\ne:".toList

/-- An instruction, then the address of this instruction and a number as data. -/
def pointing : List Char :=
  "b: HLT\nDB b,7".toList

theorem assemble_append_pointing :
    assemble (ending ++ '\n' :: pointing) = .ok [0x82, 0, 3, 1, 3, 7] ∧
      Moved 3 [false, true, false] [1, 0, 7] [1, 3, 7] ∧
      ∀ more code, assemble (ending ++ '\n' :: more) = .ok code → [0x82, 0, 3] <+: code := by
  have hfirst : assemble ending = .ok [0x82, 0, 3] := by decide
  have hsecond : assemble pointing = .ok [1, 0, 7] := by decide
  have hboth : assemble (ending ++ '\n' :: pointing) = .ok [0x82, 0, 3, 1, 3, 7] := by decide
  have hmarks : (Layout.ofSource pointing).map (·.statements.toList.flatMap Statement.marks) =
      .ok [false, true, false] := by decide
  obtain ⟨front, back, -, hback, -, hcode, hmore⟩ := assemble_append hfirst hsecond
  obtain ⟨moved, he, hmoved⟩ := hcode _ hboth
  rw [hback] at hmarks
  obtain rfl : [1, 3, 7] = moved := (List.append_right_inj [0x82, 0, 3]).mp he
  exact ⟨hboth, Except.ok.inj hmarks ▸ hmoved, hmore⟩

end ByteMachine.Assembly
