import ByteMachine.Proofs.AssemblyLayout
import ByteMachine.Proofs.Rows

namespace ByteMachine.Assembly

open Text

def Statement.renumber (number : Nat → Nat) (s : Statement) : Statement :=
  { s with line := number s.line }

namespace Layout

def renumber (number : Nat → Nat) (layout : Layout) : Layout :=
  { layout with statements := layout.statements.map (·.renumber number) }

def addRows (layout : Layout) (number : Nat) (rows : List (List Char)) :
    Except ProgramError Layout :=
  (rows.zipIdx number).foldlM (fun layout x ↦ layout.addLine x.1 x.2) layout

def code (layout : Layout) : Except ProgramError (List UInt8) := do
  let encodings ← layout.statements.toList.mapM (·.encode layout.labels)
  if encodings.flatten.length ≤ 256 then return encodings.flatten
  else .error (.programTooLarge encodings.flatten.length)

variable {layout : Layout} {number : Nat} {row : List Char} {rows others : List (List Char)}

theorem addRows_cons (layout : Layout) (number : Nat) (row : List Char) (rows : List (List Char)) :
    layout.addRows number (row :: rows) =
      layout.addLine row number >>= fun after ↦ after.addRows (number + 1) rows := by
  rw [addRows, List.zipIdx_cons, List.foldlM_cons]
  rfl

theorem addRows_append (layout : Layout) (number : Nat) (rows others : List (List Char)) :
    layout.addRows number (rows ++ others) =
      layout.addRows number rows >>= fun after ↦ after.addRows (number + rows.length) others := by
  rw [addRows, List.zipIdx_append, List.foldlM_append]
  rfl

theorem addLine_of_bare (h : splitLine row = ([], [])) : layout.addLine row number = .ok layout := by
  rw [addLine_eq, h]
  rfl

theorem addRows_cons_of_bare (h : splitLine row = ([], [])) :
    layout.addRows number (row :: rows) = layout.addRows (number + 1) rows := by
  rw [addRows_cons, addLine_of_bare h]
  rfl

theorem addRows_replicate_nil (layout : Layout) (number n : Nat) :
    layout.addRows number (List.replicate n []) = .ok layout := by
  induction n generalizing number with
  | zero => rfl
  | succ n ih => rw [List.replicate_succ, addRows_cons_of_bare rfl, ih]

theorem ofSource_eq_addRows (source : List Char) :
    ofSource source = addRows {} 1 (source.splitOn '\n') := by
  obtain ⟨n, hn⟩ := splitOn_eq_pieces_append '\n' source
  rw [hn, addRows_append]
  simp only [addRows_replicate_nil]
  exact (bind_pure _).symm

theorem addLine_congr {other : List Char} (h : splitLine row = splitLine other) :
    layout.addLine row number = layout.addLine other number := by
  rw [addLine_eq, addLine_eq, h]

theorem addRows_congr (h : rows.map splitLine = others.map splitLine) :
    layout.addRows number rows = layout.addRows number others := by
  induction rows generalizing layout number others with
  | nil =>
    rw [List.map_eq_nil_iff.mp h.symm]
  | cons row rows ih =>
    obtain ⟨other, others, rfl, ho, hs⟩ := List.map_eq_cons_iff.mp h.symm
    rw [addRows_cons, addRows_cons, addLine_congr ho.symm]
    exact bind_congr fun after ↦ ih hs.symm

end Layout

theorem assemble_eq (source : List Char) :
    assemble source = Layout.addRows {} 1 (source.splitOn '\n') >>= Layout.code := by
  rw [← Layout.ofSource_eq_addRows]
  rfl

theorem assemble_congr {source other : List Char}
    (h : (source.splitOn '\n').map splitLine = (other.splitOn '\n').map splitLine) :
    assemble source = assemble other := by
  rw [assemble_eq, assemble_eq, Layout.addRows_congr h]

theorem assemble_of_splitOn {source row line : List Char} {init rest : List (List Char)}
    (h : source.splitOn '\n' = init ++ row :: rest) (hs : splitLine row = splitLine line) :
    assemble source = Layout.addRows {} 1 init >>= fun layout ↦
      layout.addLine line (init.length + 1) >>= fun after ↦
        after.addRows (init.length + 1 + 1) rest >>= Layout.code := by
  rw [assemble_eq, h, Layout.addRows_append, bind_assoc, Nat.add_comm 1]
  refine bind_congr fun layout ↦ ?_
  rw [Layout.addRows_cons, Layout.addLine_congr hs, bind_assoc]

section

variable (number : Nat → Nat)

theorem Statement.read_renumber (n : Nat) (text : List Char) :
    Statement.read (number n) text =
      translate (·.renumber number) (·.renumber number) (Statement.read n text) := by
  rw [read_eq, read_eq]
  cases Directive.ofWord? (upperWord text) with
  | none => rfl
  | some d =>
    dsimp only
    split <;> rfl

theorem resolve_renumber (labels : Labels) (n : Nat) (slot : Slot) (text : List Char) :
    resolve labels (number n) slot text =
      translate (·.renumber number) id (resolve labels n slot text) := by
  cases slot with
  | register =>
    rw [resolve, resolve]
    cases registerIndex? text <;> rfl
  | immediate =>
    rw [resolve, resolve, resolveImmediate, resolveImmediate]
    split
    · split
      · rfl
      · split <;> rfl
    · split
      · split <;> rfl
      · rfl

theorem Statement.encode_renumber (labels : Labels) (s : Statement) :
    (s.renumber number).encode labels = translate (·.renumber number) id (s.encode labels) := by
  have hmap := mapM_translate (p := id) (g := id)
    (l := fun x ↦ resolve labels (number s.line) x.1 x.2)
    (fun x ↦ resolve_renumber number labels s.line x.1 x.2)
    ((s.directive.slots s.operands.length).zip s.operands)
  rw [List.map_id, List.map_id_fun] at hmap
  refine (congrArg (· >>= _) hmap).trans ?_
  rw [encode]
  refine translate_bind (fun values ↦ ?_) _
  rfl

namespace Layout

theorem addLabel_renumber (n : Nat) (layout : Layout) (label : List Char) :
    addLabel (number n) (layout.renumber number) label =
      translate (·.renumber number) (·.renumber number) (addLabel n layout label) := by
  have hl : (layout.renumber number).labels = layout.labels := rfl
  rw [addLabel, addLabel, hl]
  cases layout.labels.lookup label <;> rfl

theorem addStatement_renumber (layout : Layout) (s : Statement) :
    (layout.renumber number).addStatement (s.renumber number) =
      (layout.addStatement s).renumber number := by
  rw [addStatement, addStatement, renumber, renumber, Array.map_push]
  rfl

theorem addLine_renumber (layout : Layout) (line : List Char) (n : Nat) :
    (layout.renumber number).addLine line (number n) =
      translate (·.renumber number) (·.renumber number) (layout.addLine line n) := by
  rw [addLine_eq, addLine_eq, foldlM_translate (addLabel_renumber number n)]
  refine translate_bind (fun marked ↦ ?_) _
  cases (splitLine line).2 with
  | nil => rfl
  | cons c text =>
    dsimp only
    rw [Statement.read_renumber]
    exact translate_bind (fun s ↦ congrArg Except.ok (addStatement_renumber number marked s)) _

theorem renumber_empty : renumber number {} = {} := by
  rw [renumber, Array.map_empty]

/-- The run lemma of the first pass where lines have other numbers, by induction on the rows. -/
theorem addRows_renumber {rows : List (List Char)} {n m : Nat}
    (h : ∀ i < rows.length, number (n + i) = m + i) (layout : Layout) :
    (layout.renumber number).addRows m rows =
      translate (·.renumber number) (·.renumber number) (layout.addRows n rows) := by
  induction rows generalizing n m layout with
  | nil => rfl
  | cons row rows ih =>
    have hm : number n = m := h 0 (Nat.zero_lt_succ _)
    have hrest : ∀ i < rows.length, number (n + 1 + i) = m + 1 + i := by
      intro i hi
      rw [Nat.add_assoc, Nat.add_assoc, Nat.add_comm 1 i]
      exact h (i + 1) (Nat.succ_lt_succ hi)
    rw [addRows_cons, addRows_cons, ← hm, addLine_renumber, hm]
    exact translate_bind (ih hrest) _

theorem code_renumber (layout : Layout) :
    (layout.renumber number).code = translate (·.renumber number) id layout.code := by
  have hs : (layout.renumber number).statements.toList =
      layout.statements.toList.map (·.renumber number) := Array.toList_map
  have hl : (layout.renumber number).labels = layout.labels := rfl
  rw [code, code, hs, hl, mapM_translate (Statement.encode_renumber number layout.labels)]
  refine translate_bind (fun encodings ↦ ?_) _
  rw [List.map_id]
  split <;> rfl

end Layout

end

end ByteMachine.Assembly
