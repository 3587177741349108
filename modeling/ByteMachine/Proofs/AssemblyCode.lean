import ByteMachine.Proofs.AssemblyReading

namespace ByteMachine.Assembly

open Text

theorem registerIndex?_of_denotes {index : Fin 8} {letter : Char} {digits : List Char}
    (hl : letter = 'R' ∨ letter = 'r') (hd : Numeral.Denotes 10 digits index) :
    registerIndex? (letter :: digits) = some (UInt8.ofNat index) := by
  have hr := Numeral.read_of_denotes (by omega) hd (Nat.le_of_lt_succ index.isLt)
  obtain rfl | rfl := hl
  · rw [registerIndex?, hr]
    rfl
  · rw [registerIndex?, hr]
    rfl

theorem number?_of_written {value : UInt8} {text : List Char}
    (h : (Argument.byte value).Written text) : number? text = some value := by
  have hv : value.toNat ≤ 255 := Nat.le_of_lt_succ value.toNat_lt
  have hof : UInt8.ofNat value.toNat = value := UInt8.ofNat_toNat
  cases h with
  | decimal hd =>
    have hdigit := Numeral.isDigit_of_denotes hd
    have hr := Numeral.read_of_denotes (by omega) hd hv
    rw [number?]
    · rw [hr]
      exact congrArg some hof
    · rintro digits rfl
      cases hdigit 'x' (by simp)
    · rintro digits rfl
      cases hdigit 'b' (by simp)
  | hexadecimal hd =>
    rw [number?, Numeral.read_of_denotes (by omega) hd hv]
    exact congrArg some hof
  | binary hd =>
    rw [number?, Numeral.read_of_denotes (by omega) hd hv]
    exact congrArg some hof

theorem isNameStart_of_isDigit {c : Char} (h : c.isDigit) : isNameStart c = false := by
  rw [Bool.eq_false_iff]
  intro hs
  simp only [isNameStart, Char.isAlpha, Char.isUpper, Char.isLower, Char.isDigit, Bool.or_eq_true,
    Bool.and_eq_true, decide_eq_true_eq, ge_iff_le, UInt32.le_iff_toNat_le] at h hs
  obtain (hs | hs) | rfl := hs
  · exact absurd (Nat.le_trans hs.1 h.2) (by decide)
  · exact absurd (Nat.le_trans hs.1 h.2) (by decide)
  · exact absurd h.2 (by decide)

theorem not_isIdentifier_of_isDigit {c : Char} {rest : List Char} (hc : c.isDigit) :
    ¬ isIdentifier (c :: rest) := by
  rw [isIdentifier, isNameStart_of_isDigit hc]
  exact Bool.false_ne_true

theorem resolveImmediate_of_number? (labels : Labels) (line : Nat) {c : Char} {rest : List Char}
    {value : UInt8} (hc : c.isDigit) (hn : number? (c :: rest) = some value) :
    resolveImmediate labels line (c :: rest) = .ok value := by
  have hd : (c :: rest).head?.any Char.isDigit := hc
  rw [resolveImmediate, if_neg (not_isIdentifier_of_isDigit hc), if_pos hd, hn]

theorem resolveImmediate_of_written {value : UInt8} {text : List Char} (labels : Labels)
    (line : Nat) (h : (Argument.byte value).Written text) :
    resolveImmediate labels line text = .ok value := by
  obtain ⟨c, rest, rfl, hc⟩ : ∃ c rest, text = c :: rest ∧ c.isDigit := by
    cases h with
    | decimal hd =>
      cases text with
      | nil => exact absurd rfl hd.1
      | cons c rest => exact ⟨c, rest, rfl, Numeral.isDigit_of_denotes hd c List.mem_cons_self⟩
    | hexadecimal => exact ⟨_, _, rfl, rfl⟩
    | binary => exact ⟨_, _, rfl, rfl⟩
  exact resolveImmediate_of_number? labels line hc (number?_of_written h)

def Resolves (labels : Labels) (address : List Char → Nat) (arguments : List Argument) : Prop :=
  ∀ name, .label name ∈ arguments →
    isIdentifier name ∧ labels.lookup name = some (address name) ∧ address name ≤ 255

theorem resolve_of_written {a : Argument} {text : List Char} {labels : Labels}
    {address : List Char → Nat} (line : Nat) (h : a.Written text)
    (hl : Resolves labels address [a]) :
    resolve labels line a.slot text = .ok (a.code address) := by
  cases a with
  | register index =>
    cases h with
    | register hletter hd =>
      rw [Argument.slot, resolve, registerIndex?_of_denotes hletter hd]
      rfl
  | byte value => exact resolveImmediate_of_written labels line h
  | label name =>
    cases h with
    | label =>
      obtain ⟨hi, hlookup, hn⟩ := hl text List.mem_cons_self
      rw [Argument.slot, resolve, resolveImmediate, if_pos hi, hlookup]
      exact if_pos (Nat.lt_succ_of_le hn)

theorem mapM_resolve {as : List Argument} {texts : List (List Char)} {labels : Labels}
    {address : List Char → Nat} (line : Nat) (h : List.Forall₂ Argument.Written as texts)
    (hl : Resolves labels address as) :
    ((as.map Argument.slot).zip texts).mapM (fun x ↦ resolve labels line x.1 x.2) =
      .ok (as.map (·.code address)) := by
  rw [mapM_eq_ok_iff]
  induction h with
  | nil => exact .nil
  | @cons a text as texts ha _ ih =>
    have hhead : Resolves labels address [a] :=
      fun name hm ↦ hl name (List.mem_cons.mpr (.inl (List.mem_singleton.mp hm)))
    have htail : Resolves labels address as := fun name hm ↦ hl name (List.mem_cons_of_mem a hm)
    exact .cons (resolve_of_written line ha hhead) (ih htail)

namespace Command

variable {c : Command} {s : Statement}

theorem encode_of_stated {labels : Labels} {address : List Char → Nat} (h : Stated c s)
    (hl : Resolves labels address c.arguments) : s.encode labels = .ok (c.code address) := by
  have hslots : s.directive.slots s.operands.length = c.arguments.map Argument.slot := by
    rw [h.directive, ← h.operands.length_eq, c.slots_eq]
  have hv := mapM_resolve s.line h.operands hl
  rw [← hslots] at hv
  rw [Statement.encode, code, ← h.directive]
  exact bind_eq_ok_iff.mpr ⟨_, hv, rfl⟩

theorem size_of_stated (h : Stated c s) : s.size = c.size := by
  have hlength := h.operands.length_eq
  have hslots := congrArg List.length c.slots_eq
  rw [List.length_map] at hslots
  rw [Statement.size, size, h.directive]
  cases hd : c.directive with
  | instruction i =>
    rw [hd] at hslots
    rw [hslots]
    exact congrArg (1 + ·) i.length_slots.symm
  | data => exact hlength.symm.trans (Nat.zero_add _).symm

end Command

/-- Programs that differ in empty lines alone. -/
structure Program.Alike (p q : Program) : Prop where
  labels : p.labels = q.labels
  commands : p.commands = q.commands
  address? : ∀ name, p.address? name = q.address? name

namespace Program

variable {p q : Program} {source : List Char}

theorem Alike.refl (p : Program) : p.Alike p :=
  ⟨rfl, rfl, fun _ ↦ rfl⟩

theorem Alike.symm (h : p.Alike q) : q.Alike p :=
  ⟨h.labels.symm, h.commands.symm, fun name ↦ (h.address? name).symm⟩

theorem Alike.trans {r : Program} (h : p.Alike q) (h' : q.Alike r) : p.Alike r :=
  ⟨h.labels.trans h'.labels, h.commands.trans h'.commands,
    fun name ↦ (h.address? name).trans (h'.address? name)⟩

theorem Alike.cons (line : Line) (h : p.Alike q) : Program.Alike (line :: p) (line :: q) := by
  refine ⟨congrArg (line.labels ++ ·) h.labels, ?_, fun name ↦ ?_⟩
  · obtain ⟨names, _ | c⟩ := line
    · exact h.commands
    · exact congrArg (c :: ·) h.commands
  · exact congrArg (if name ∈ line.labels then some 0 else ·.map (line.size + ·)) (h.address? name)

theorem map_zero_add (n? : Option Nat) : n?.map (0 + ·) = n? := by
  simp

theorem Alike.skip (h : p.Alike q) : Program.Alike (⟨[], none⟩ :: p) q := by
  refine ⟨h.labels, h.commands, fun name ↦ ?_⟩
  rw [Program.address?, List.map_cons, offset?, if_neg List.not_mem_nil, ← h.address? name]
  exact map_zero_add _

theorem written_append_return {line : Line} {text : List Char} (h : line.Written text) :
    line.Written (text ++ ['\r']) := by
  have hcomment {text : List Char} (ht : '\n' ∉ text) : '\n' ∉ text ++ ['\r'] := by
    intro hm
    obtain hm | hm := List.mem_append.mp hm
    · exact ht hm
    · cases List.mem_singleton.mp hm
  cases h with
  | bare hf ha hc =>
    cases hc with
    | none => simpa using Line.Written.bare hf ha.append_return .none
    | some ht => simpa using Line.Written.bare hf ha (.some (hcomment ht))
  | command hf hb hw ha hc =>
    cases hc with
    | none => simpa using Line.Written.command hf hb hw ha.append_return .none
    | some ht => simpa using Line.Written.command hf hb hw ha (.some (hcomment ht))

theorem lines_append_end {line : Line} {text finish : List Char} (rest : List Char)
    (hn : line.Named) (ht : line.Written text) (he : LineEnd finish) :
    ∃ content, line.Written content ∧ lines (text ++ finish ++ rest) = content :: lines rest :=
  he.lines (fun _ h ↦ Line.not_mem_of_written h hn) (fun _ h ↦ written_append_return h) ht rest

theorem eq_empty_of_written {line : Line} (h : line.Written []) (hn : line.Named) :
    line = ⟨[], none⟩ := by
  obtain ⟨front, body, comment, he, hf, -, -, hb⟩ := Line.parts_of_written h hn
  obtain ⟨he, -⟩ := List.append_eq_nil_iff.mp he.symm
  obtain ⟨rfl, rfl⟩ := List.append_eq_nil_iff.mp he
  obtain ⟨names, command?⟩ := line
  obtain ⟨rfl, -⟩ | ⟨c, -, -, hne⟩ := hb
  · generalize hfront : ([] : List Char) = front at hf
    cases hf with
    | nil => rfl
    | cons => simp at hfront
  · exact absurd rfl hne

theorem lines_of_last {line : Line} {text : List Char} (ht : line.Written text) (hn : line.Named) :
    ∃ q : Program, q.Alike [line] ∧ (∀ line ∈ q, line.Named) ∧
      List.Forall₂ Line.Written q (lines text) := by
  by_cases hne : text = []
  -- An empty text has no lines, and its line in the program is empty.
  · subst hne
    rw [eq_empty_of_written ht hn]
    exact ⟨[], (Alike.refl []).skip.symm, nofun, .nil⟩
  · have hl : lines text = [text] := pieces_of_not_mem (Line.not_mem_of_written ht hn) hne
    rw [hl]
    exact ⟨[line], .refl _, fun other hm ↦ List.mem_singleton.mp hm ▸ hn, .cons ht .nil⟩

theorem lines_of_written (h : p.Written source) (hp : ∀ line ∈ p, line.Named) :
    ∃ q : Program, q.Alike p ∧ (∀ line ∈ q, line.Named) ∧
      List.Forall₂ Line.Written q (lines source) := by
  have hempty : Line.Named ⟨[], none⟩ := ⟨nofun, nofun⟩
  induction h with
  | empty ht =>
    obtain ⟨q, ha, hq, hw⟩ := lines_of_last ht hempty
    exact ⟨q, ha.trans (Alike.refl []).skip, hq, hw⟩
  | last ht => exact lines_of_last ht (hp _ List.mem_cons_self)
  | @skip p text finish rest ht he _ ih =>
    obtain ⟨q, ha, hq, hw⟩ := ih hp
    obtain ⟨content, hc, hl⟩ := lines_append_end rest hempty ht he
    exact ⟨⟨[], none⟩ :: q, ha.skip, List.forall_mem_cons.mpr ⟨hempty, hq⟩, hl ▸ .cons hc hw⟩
  | @line line p text finish rest ht he _ ih =>
    obtain ⟨hline, hp⟩ := List.forall_mem_cons.mp hp
    obtain ⟨q, ha, hq, hw⟩ := ih hp
    obtain ⟨content, hc, hl⟩ := lines_append_end rest hline ht he
    exact ⟨line :: q, ha.cons line, List.forall_mem_cons.mpr ⟨hline, hq⟩, hl ▸ .cons hc hw⟩

theorem reads_of_written {texts : List (List Char)} (h : List.Forall₂ Line.Written q texts)
    (hq : ∀ line ∈ q, line.Named) (number : Nat) :
    ∃ items, List.Forall₂ Reads (texts.zipIdx number) items ∧
      List.Forall₂ Line.Itemized q items := by
  induction h generalizing number with
  | nil => exact ⟨[], .nil, .nil⟩
  | @cons line text q texts ht _ ih =>
    obtain ⟨hline, hq⟩ := List.forall_mem_cons.mp hq
    obtain ⟨item, hr, hi⟩ := Line.reads_of_written number ht hline
    obtain ⟨items, hrs, his⟩ := ih hq (number + 1)
    exact ⟨item :: items, .cons hr hrs, .cons hi his⟩

variable {items : List Item}

theorem labels_of_itemized (h : List.Forall₂ Line.Itemized q items) :
    items.flatMap Item.labels = q.labels := by
  induction h with
  | nil => rfl
  | cons hi _ ih =>
    rw [List.flatMap_cons, hi.labels, ih]
    rfl

theorem statements_of_itemized (h : List.Forall₂ Line.Itemized q items) :
    List.Forall₂ Command.Stated q.commands (items.filterMap Item.statement?) := by
  induction h with
  | nil => exact .nil
  | @cons line item q items hi _ ih =>
    obtain ⟨names, command?⟩ := line
    obtain ⟨labels, statement?⟩ := item
    cases hi.command with
    | none => exact ih
    | some hs => exact .cons hs ih

theorem size_of_itemized {line : Line} {item : Item} (h : Line.Itemized line item) :
    item.size = line.size := by
  obtain ⟨names, command?⟩ := line
  obtain ⟨labels, statement?⟩ := item
  cases h.command with
  | none => rfl
  | some hs => exact Command.size_of_stated hs

theorem blocks_of_itemized (h : List.Forall₂ Line.Itemized q items) :
    items.map (fun item ↦ (item.labels, item.size)) =
      q.map fun line ↦ (line.labels, line.size) := by
  induction h with
  | nil => rfl
  | cons hi _ ih => rw [List.map_cons, List.map_cons, hi.labels, size_of_itemized hi, ih]

theorem mem_labels_of_address? {name : List Char} {n : Nat} (h : p.address? name = some n) :
    name ∈ p.labels := by
  by_contra hn
  have hnone : p.address? name = none := by
    refine Layout.offset?_eq_none fun block hb hm ↦ ?_
    obtain ⟨line, hl, rfl⟩ := List.mem_map.mp hb
    exact hn (List.mem_flatMap.mpr ⟨line, hl, hm⟩)
  rw [h] at hnone
  cases hnone

theorem WellFormed.identified (hp : p.WellFormed) {c : Command} (hc : c ∈ p.commands) :
    Identified c.arguments := by
  intro name hm
  obtain ⟨n, hn, -⟩ := hp.resolved c hc name hm
  exact hp.identifier name (mem_labels_of_address? hn)

theorem WellFormed.named (hp : p.WellFormed) {line : Line} (hl : line ∈ p) : line.Named where
  labels name hm := hp.identifier name (List.mem_flatMap.mpr ⟨line, hl, hm⟩)
  arguments _ hc := hp.identified (List.mem_filterMap.mpr ⟨line, hl, hc⟩)

theorem length_code (p : Program) : p.code.length = p.size := by
  rw [code, size, List.length_flatMap]
  simp only [Command.length_code]

theorem WellFormed.resolves (hp : p.WellFormed) {labels : Labels}
    (hl : ∀ name, labels.lookup name = p.address? name) {c : Command} (hc : c ∈ p.commands) :
    Resolves labels (fun name ↦ (p.address? name).getD 0) c.arguments := by
  intro name hm
  obtain ⟨n, hn, hle⟩ := hp.resolved c hc name hm
  have ha : (p.address? name).getD 0 = n := by
    rw [hn]
    rfl
  dsimp only
  rw [hl, ha]
  exact ⟨hp.identified hc name hm, hn, hle⟩

theorem mapM_encode {labels : Labels} {statements : List Statement} (hp : p.WellFormed)
    (hl : ∀ name, labels.lookup name = p.address? name)
    (h : List.Forall₂ Command.Stated p.commands statements) :
    statements.mapM (·.encode labels) =
      .ok (p.commands.map (·.code fun name ↦ (p.address? name).getD 0)) := by
  rw [mapM_eq_ok_iff, List.forall₂_map_right_iff]
  have hand := (List.forall₂_and_left _ _).mpr ⟨fun c (hc : c ∈ p.commands) ↦ hc, h⟩
  exact (hand.imp fun c s hs ↦ Command.encode_of_stated hs.2 (hp.resolves hl hs.1)).flip

/-- Assembling what a program is written as yields its code. -/
theorem assemble_of_written {source : List Char} (hp : p.WellFormed) (h : p.Written source) :
    assemble source = .ok p.code := by
  obtain ⟨q, ha, hq, hw⟩ := lines_of_written h fun line hl ↦ hp.named hl
  obtain ⟨items, hr, hi⟩ := reads_of_written hw hq 1
  have hlabels : items.flatMap Item.labels = p.labels := (labels_of_itemized hi).trans ha.labels
  have hd : (items.flatMap Item.labels).Nodup := hlabels ▸ hp.nodup
  have hlayout := Layout.ofSource_eq_ok_iff.mpr ⟨items, hr, hd, rfl⟩
  have hlookup (name : List Char) :
      (items.foldl Layout.place {}).labels.lookup name = p.address? name := by
    rw [Layout.lookup_foldl_place {} hd, blocks_of_itemized hi, ← ha.address?]
    exact Option.or_none.trans (map_zero_add _)
  have hstatements : (items.foldl Layout.place {}).statements.toList =
      items.filterMap Item.statement? := Layout.statements_foldl_place {} items
  have hstated := statements_of_itemized hi
  rw [ha.commands, ← hstatements] at hstated
  have hlength : p.code.length ≤ 256 := p.length_code ▸ hp.size_le
  rw [assemble]
  exact bind_eq_ok_iff.mpr ⟨_, hlayout,
    bind_eq_ok_iff.mpr ⟨_, mapM_encode hp hlookup hstated, if_pos hlength⟩⟩

end Program

def sampleLoad : Command where
  directive := .instruction .loadImmediate
  arguments := [.register ⟨0, Nat.succ_pos _⟩, .label ['H', 'L', 'T']]
  slots_eq := rfl
  nonempty := nofun

def sampleData : Command where
  directive := .data
  arguments := [.byte 10, .label ['R', '1']]
  slots_eq := rfl
  nonempty := nofun

def sample : Program :=
  [⟨[['a'], ['R', '1']], some sampleLoad⟩, ⟨[], some sampleData⟩, ⟨[['H', 'L', 'T']], none⟩]

def sampleText : List Char :=
  "a: R1 :\tldi r00 , HLT;:\r\n;\nDB 0x0a,R1\nHLT:".toList

theorem sample_wellFormed : sample.WellFormed where
  identifier := by decide
  nodup := by decide
  resolved := by
    intro c hc name hm
    obtain rfl | rfl : c = sampleLoad ∨ c = sampleData := by
      simpa [Program.commands, sample] using hc
    · obtain rfl : name = ['H', 'L', 'T'] := by simpa [sampleLoad] using hm
      exact ⟨5, rfl, by decide⟩
    · obtain rfl : name = ['R', '1'] := by simpa [sampleData] using hm
      exact ⟨0, rfl, by decide⟩
  size_le := by decide

theorem sample_written : sample.Written sampleText := by
  have hspace : Blanks [' '] := by decide
  have htab : Blanks ['\t'] := by decide
  have hload : sampleLoad.Written "ldi r00 , HLT".toList := by
    have hw : ['l', 'd', 'i'].map Char.toUpper = sampleLoad.directive.word := rfl
    have hzero : Numeral.Denotes 10 ['0', '0'] 0 :=
      ⟨nofun, [0, 0], .cons ⟨by decide, .inl rfl⟩ (.cons ⟨by decide, .inl rfl⟩ .nil), rfl⟩
    have hr : (Argument.register 0).Written ['r', '0', '0'] := .register (.inr rfl) hzero
    exact .arguments hw hspace (.cons .nil hr hspace (.one hspace (.label _)))
  have hdata : sampleData.Written "DB 0x0a,R1".toList := by
    have hw : ['D', 'B'].map Char.toUpper = sampleData.directive.word := rfl
    have hten : Numeral.Denotes 16 ['0', 'a'] 10 :=
      ⟨nofun, [0, 10], .cons ⟨by decide, .inl rfl⟩ (.cons ⟨by decide, .inl rfl⟩ .nil), rfl⟩
    have hb : (Argument.byte 10).Written ['0', 'x', '0', 'a'] := .hexadecimal hten
    exact .arguments hw hspace (.cons .nil hb .nil (.one .nil (.label _)))
  have hcomment : Comment [';', ':'] := .some (by decide)
  have hempty : Comment [';'] := .some (by decide)
  have hnames : WrittenLabels [['a'], ['R', '1']] "a: R1 :".toList :=
    .cons .nil .nil (.cons hspace hspace .nil)
  have hfirst : Line.Written ⟨[['a'], ['R', '1']], some sampleLoad⟩
      "a: R1 :\tldi r00 , HLT;:".toList := .command hnames htab hload .nil hcomment
  have hsecond : Line.Written ⟨[], none⟩ [';'] := .bare .nil .nil hempty
  have hthird : Line.Written ⟨[], some sampleData⟩ "DB 0x0a,R1".toList :=
    .command .nil .nil hdata .nil .none
  have hlast : Line.Written ⟨[['H', 'L', 'T']], none⟩ "HLT:".toList :=
    .bare (.cons .nil .nil .nil) .nil .none
  have hlines : sampleText = "a: R1 :\tldi r00 , HLT;:".toList ++ ['\r', '\n'] ++
      ([';'] ++ ['\n'] ++ ("DB 0x0a,R1".toList ++ ['\n'] ++ "HLT:".toList)) := by decide
  rw [hlines]
  exact .line hfirst .returnFeed (.skip hsecond .feed (.line hthird .feed (.last hlast)))

theorem assemble_sample :
    sample.WellFormed ∧ sample.Written sampleText ∧
      assemble sampleText = .ok [0x82, 0, 5, 10, 0] := by
  have hcode : sample.code = [0x82, 0, 5, 10, 0] := rfl
  refine ⟨sample_wellFormed, sample_written, ?_⟩
  rw [Program.assemble_of_written sample_wellFormed sample_written, hcode]

end ByteMachine.Assembly
