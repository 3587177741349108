import ByteMachine.Disassembly
import ByteMachine.Proofs.AssemblyCode
import ByteMachine.Proofs.AssemblyPasses

namespace ByteMachine

open Text Assembly

/-- An instruction with its operand bytes, which may name registers that do not exist. -/
structure Encoding where
  instruction : Instruction
  operands : List UInt8
  length_eq : operands.length = operandCount instruction.opcode

namespace Encoding

variable (e : Encoding)

def bytes : List UInt8 :=
  e.instruction.opcode :: e.operands

def operandTexts : List (List Char) :=
  List.zipWith Slot.text e.instruction.slots e.operands

def text : List Char :=
  e.instruction.text e.operandTexts

def places : List (Slot × UInt8) :=
  e.instruction.slots.zip e.operands

def registers : List UInt8 :=
  e.places.filterMap fun x ↦ if x.1 = .register then some x.2 else none

/-- The first byte in the place of a register that names none, and the line it comes from. -/
def stray? (es : List Encoding) : Option (Nat × UInt8) :=
  (es.zipIdx 1).findSome? fun x ↦ (x.1.registers.find? (8 ≤ ·)).map fun index ↦ (x.2, index)

theorem length_operands : e.operands.length = e.instruction.slots.length :=
  e.length_eq.trans e.instruction.length_slots.symm

end Encoding

/-- The texts of the instructions in some bytes, each found behind the operands of the one before.
-/
def sweep : List UInt8 → Except Fault (List String)
  | [] => .ok []
  | opcode :: rest => do
    let text ← disassemble (opcode :: rest)
    let texts ← sweep (rest.drop (operandCount opcode))
    return text :: texts
termination_by code => code.length
decreasing_by
  rw [List.length_drop, List.length_cons]
  omega

theorem Instruction.operandTexts_append {slots : List Slot} {values : List UInt8} (address : Nat)
    (rest : List UInt8) (h : values.length = slots.length) :
    operandTexts address slots (values ++ rest) = .ok (List.zipWith Slot.text slots values) := by
  induction slots generalizing address values with
  | nil => rfl
  | cons slot slots ih =>
    cases values with
    | nil => cases h
    | cons value values =>
      rw [List.cons_append, operandTexts, ih (address + 1) (Nat.succ.inj h)]
      rfl

theorem disassemble_append (e : Encoding) (rest : List UInt8) :
    disassemble (e.bytes ++ rest) = .ok (String.ofList e.text) := by
  rw [Encoding.bytes, List.cons_append, disassemble, Instruction.ofOpcode?_opcode]
  dsimp only
  rw [Instruction.operandTexts_append 1 rest e.length_operands]
  rfl

theorem sweep_bytes (es : List Encoding) :
    sweep (es.flatMap Encoding.bytes) = .ok (es.map fun e ↦ String.ofList e.text) := by
  induction es with
  | nil =>
    rw [List.flatMap_nil, sweep]
    rfl
  | cons e es ih =>
    have hd := disassemble_append e (es.flatMap Encoding.bytes)
    rw [List.flatMap_cons, Encoding.bytes, List.cons_append, sweep, ← e.length_eq, List.drop_left,
      ih, ← List.cons_append, ← Encoding.bytes, hd]
    rfl

namespace Assembly

theorem word_text (slot : Slot) (value : UInt8) : Word (slot.text value) := by
  have hw : Word (Numeral.decimal value.toNat) :=
    Word.of_denotes (by omega) (Numeral.denotes_write (by omega) 1 value.toNat)
  cases slot with
  | register => exact Word.cons rfl hw.all
  | immediate => exact hw

theorem pieces_intercalate {separator : Char} {texts : List (List Char)}
    (hs : ∀ text ∈ texts, separator ∉ text) (hne : ∀ text ∈ texts, text ≠ []) :
    pieces separator ([separator].intercalate texts) = texts := by
  induction texts with
  | nil => rfl
  | cons text texts ih =>
    obtain ⟨hst, hs⟩ := List.forall_mem_cons.mp hs
    obtain ⟨hnt, hne⟩ := List.forall_mem_cons.mp hne
    cases texts with
    | nil =>
      rw [List.intercalate_singleton]
      exact pieces_of_not_mem hst hnt
    | cons other texts =>
      rw [List.intercalate_cons_cons, List.append_assoc, List.singleton_append,
        pieces_append_cons hst, ih hs hne]

theorem trim_of_tight {text : List Char} (h : Tight text) : trim text = text := by
  simpa using trim_append .nil h .nil

def tail : List (List Char) → List Char
  | [] => []
  | texts => ' ' :: [','].intercalate texts

theorem text_eq_append (i : Instruction) (texts : List (List Char)) :
    i.text texts = i.mnemonic.toList ++ tail texts := by
  cases texts with
  | nil => exact (List.append_nil _).symm
  | cons text texts => rfl

theorem isBlank_head_tail (texts : List (List Char)) : ∀ c ∈ (tail texts).head?, isBlank c := by
  intro c hc
  cases texts with
  | nil => cases hc
  | cons text texts =>
    cases hc
    rfl

section

variable {texts : List (List Char)}

theorem inner_intercalate (h : ∀ text ∈ texts, Word text) :
    ∀ c ∈ [','].intercalate texts, IsInner c := by
  induction texts with
  | nil => nofun
  | cons text texts ih =>
    obtain ⟨ht, hts⟩ := List.forall_mem_cons.mp h
    cases texts with
    | nil =>
      rw [List.intercalate_singleton]
      exact ht.inner
    | cons other texts =>
      rw [List.intercalate_cons_cons]
      refine inner_append (inner_append ht.inner ?_) (ih hts)
      intro c hc
      exact .inr (.inr (List.mem_singleton.mp hc))

theorem inner_tail (h : ∀ text ∈ texts, Word text) : ∀ c ∈ tail texts, IsInner c := by
  have hspace : Blanks [' '] := by decide
  cases texts with
  | nil => nofun
  | cons text texts => exact inner_append (inner_of_blanks hspace) (inner_intercalate h)

theorem intercalate_eq_append (h : ∀ text ∈ texts, Word text) (hne : texts ≠ []) :
    ∃ front word, Word word ∧ [','].intercalate texts = front ++ word := by
  induction texts with
  | nil => exact absurd rfl hne
  | cons text texts ih =>
    obtain ⟨ht, hts⟩ := List.forall_mem_cons.mp h
    cases texts with
    | nil => exact ⟨[], text, ht, List.intercalate_singleton⟩
    | cons other texts =>
      obtain ⟨front, word, hw, he⟩ := ih hts nofun
      refine ⟨text ++ [','] ++ front, word, hw, ?_⟩
      rw [List.intercalate_cons_cons, he, List.append_assoc _ front]

theorem tight_append_tail {word : List Char} (hw : Word word) (h : ∀ text ∈ texts, Word text) :
    Tight (word ++ tail texts) := by
  refine ⟨?_, ?_⟩
  · rw [List.head?_append_of_ne_nil _ hw.ne_nil]
    exact hw.tight.head
  · obtain ⟨front, last, hl, he⟩ : ∃ front last, Word last ∧ word ++ tail texts = front ++ last := by
      cases texts with
      | nil => exact ⟨[], word, hw, List.append_nil word⟩
      | cons text texts =>
        obtain ⟨front, last, hl, he⟩ := intercalate_eq_append h nofun
        refine ⟨word ++ ' ' :: front, last, hl, ?_⟩
        rw [tail, he, List.append_assoc, List.cons_append]
        exact List.cons_ne_nil _ _
    rw [he, List.getLast?_append_of_ne_nil _ hl.ne_nil]
    exact hl.tight.last

theorem operandTexts_tail (h : ∀ text ∈ texts, Word text) :
    Statement.operandTexts (tail texts) = texts := by
  cases texts with
  | nil => rfl
  | cons text texts =>
    obtain ⟨ht, hts⟩ := List.forall_mem_cons.mp h
    have hspace : Blanks [' '] := by decide
    have htail : tail (text :: texts) = [','].intercalate ((' ' :: text) :: texts) := by
      cases texts <;> rfl
    have htrim : trim (' ' :: text) = text := by
      simpa using trim_append hspace ht.tight .nil
    have hcomma : ∀ other ∈ (' ' :: text) :: texts, ',' ∉ other := by
      rw [List.forall_mem_cons]
      refine ⟨?_, fun other ho ↦ ?_⟩
      · simpa using comma_not_mem hspace ht .nil
      · simpa using comma_not_mem .nil (hts other ho) .nil
    have hne : ∀ other ∈ (' ' :: text) :: texts, other ≠ [] :=
      List.forall_mem_cons.mpr ⟨nofun, fun other ho ↦ (hts other ho).ne_nil⟩
    have hmap : texts.map trim = texts.map id :=
      List.map_congr_left fun other ho ↦ trim_of_tight (hts other ho).tight
    rw [Statement.operandTexts, htail, pieces_intercalate hcomma hne, List.map_cons, htrim, hmap,
      List.map_id, List.filter_eq_self]
    intro other ho
    simpa using (h other ho).ne_nil

end

end Assembly

namespace Encoding

variable (e : Encoding)

theorem word_operandTexts : ∀ text ∈ e.operandTexts, Word text := by
  intro text ht
  rw [operandTexts, List.mem_iff_getElem] at ht
  obtain ⟨k, hk, rfl⟩ := ht
  rw [List.getElem_zipWith]
  exact word_text _ _

def statement (line : Nat) : Statement :=
  ⟨line, .instruction e.instruction, e.operandTexts⟩

theorem text_eq :
    e.text = (Directive.instruction e.instruction).word ++ tail e.operandTexts :=
  text_eq_append e.instruction e.operandTexts

theorem word_mnemonic : Word (Directive.instruction e.instruction).word :=
  Directive.word_of_toUpper (Directive.map_toUpper_word _)

theorem inner_text : ∀ c ∈ e.text, IsInner c := by
  rw [text_eq]
  exact inner_append e.word_mnemonic.inner (inner_tail e.word_operandTexts)

theorem text_ne_nil : e.text ≠ [] := by
  rw [text_eq]
  exact List.append_ne_nil_of_left_ne_nil e.word_mnemonic.ne_nil _

theorem read_text (line : Nat) : Statement.read line e.text = .ok (e.statement line) := by
  have ho := operandTexts_tail e.word_operandTexts
  have hl : (Statement.operandTexts (tail e.operandTexts)).length =
      (Directive.instruction e.instruction).arity
        (Statement.operandTexts (tail e.operandTexts)).length := by
    rw [ho, operandTexts, List.length_zipWith, e.length_operands, Nat.min_self]
    rfl
  rw [text_eq, Statement.read_append line (Directive.map_toUpper_word _)
    (isBlank_head_tail e.operandTexts) hl, ho]
  rfl

theorem reads_text (line : Nat) : Reads (e.text, line) ⟨[], some (e.statement line)⟩ := by
  refine .statement ?_ e.text_ne_nil (e.read_text line)
  have hsemicolon := not_mem_of_inner e.inner_text (.inr (.inl rfl))
  have hcolon := not_mem_of_inner e.inner_text (.inl rfl)
  have htight : Tight e.text := by
    rw [text_eq]
    exact tight_append_tail e.word_mnemonic e.word_operandTexts
  have hcut := takeWhile_comment hsemicolon .none
  rw [List.append_nil] at hcut
  rw [splitLine, hcut, splitLabels_of_not_mem hcolon]
  exact congrArg (Prod.mk []) (trim_of_tight htight)

theorem lines_join (es : List Encoding) :
    lines (['\n'].intercalate (es.map text)) = es.map text := by
  refine pieces_intercalate ?_ ?_
  · intro line hl
    obtain ⟨e, -, rfl⟩ := List.mem_map.mp hl
    exact not_mem_of_inner e.inner_text (.inr (.inr rfl))
  · intro line hl
    obtain ⟨e, -, rfl⟩ := List.mem_map.mp hl
    exact e.text_ne_nil

theorem reads_zipIdx (es : List Encoding) (first : Nat) :
    List.Forall₂ Reads ((es.map text).zipIdx first)
      ((es.zipIdx first).map fun x ↦ ⟨[], some (x.1.statement x.2)⟩) := by
  induction es generalizing first with
  | nil => exact .nil
  | cons e es ih => exact .cons (e.reads_text first) (ih (first + 1))

theorem statements_join (es : List Encoding) :
    ∃ layout, Layout.ofSource (['\n'].intercalate (es.map text)) = .ok layout ∧
      layout.statements.toList = (es.zipIdx 1).map fun x ↦ x.1.statement x.2 := by
  have hr := reads_zipIdx es 1
  rw [← lines_join es] at hr
  refine ⟨_, Layout.ofSource_eq_ok_iff.mpr ⟨_, hr, ?_, rfl⟩, ?_⟩
  · have hnone : ((es.zipIdx 1).map fun x ↦ (⟨[], some (x.1.statement x.2)⟩ : Item)).flatMap
        Item.labels = [] := by
      rw [List.flatMap_map, List.flatMap_eq_nil_iff]
      exact fun _ _ ↦ rfl
    rw [hnone]
    exact .nil
  · rw [Layout.statements_foldl_place, List.filterMap_map]
    exact congrFun List.filterMap_eq_map' (es.zipIdx 1)

theorem registerIndex?_decimal (value : UInt8) :
    registerIndex? ('R' :: Numeral.decimal value.toNat) =
      if 8 ≤ value then none else some value := by
  have hd : Numeral.Denotes 10 (Numeral.decimal value.toNat) value.toNat :=
    Numeral.denotes_write (by omega) 1 value.toNat
  by_cases h : 8 ≤ value
  · have hlt : 7 < value.toNat := UInt8.le_iff_toNat_le.mp h
    rw [if_pos h, registerIndex?, Numeral.read_of_limit_lt (by omega) hd hlt]
    rfl
  · have hle : value.toNat ≤ 7 := by
      rw [UInt8.le_iff_toNat_le] at h
      exact Nat.not_lt.mp h
    rw [if_neg h, registerIndex?, Numeral.read_of_denotes (by omega) hd hle]
    exact congrArg some UInt8.ofNat_toNat

theorem resolve_text (labels : Labels) (line : Nat) (slot : Slot) (value : UInt8) :
    resolve labels line slot (slot.text value) =
      if slot = .register ∧ 8 ≤ value then
        .error (.invalidOperand line (String.ofList ('R' :: Numeral.decimal value.toNat)))
      else .ok value := by
  cases slot with
  | register =>
    rw [resolve, Slot.text, registerIndex?_decimal]
    by_cases h : 8 ≤ value
    · rw [if_pos h, if_pos ⟨rfl, h⟩]
    · rw [if_neg h, if_neg fun hv ↦ h hv.2]
  | immediate =>
    rw [if_neg (by simp)]
    exact resolveImmediate_of_written labels line
      (.decimal (Numeral.denotes_write (by omega) 1 value.toNat))

def refusal (x : Nat × UInt8) : ProgramError :=
  .invalidOperand x.1 (String.ofList ('R' :: Numeral.decimal x.2.toNat))

theorem zip_zipWith_text (slots : List Slot) (values : List UInt8) :
    slots.zip (List.zipWith Slot.text slots values) =
      (slots.zip values).map fun x ↦ (x.1, x.1.text x.2) := by
  induction slots generalizing values with
  | nil => rfl
  | cons slot slots ih =>
    cases values with
    | nil => rfl
    | cons value values => exact congrArg ((slot, slot.text value) :: ·) (ih values)

theorem map_find?_registers {α : Type} (f : UInt8 → α) (places : List (Slot × UInt8)) :
    ((places.filterMap fun x ↦ if x.1 = .register then some x.2 else none).find? (8 ≤ ·)).map f =
      places.findSome? fun x ↦ if x.1 = .register ∧ 8 ≤ x.2 then some (f x.2) else none := by
  induction places with
  | nil => rfl
  | cons x places ih =>
    obtain ⟨slot, value⟩ := x
    cases slot with
    | immediate => simpa using ih
    | register =>
      by_cases h : 8 ≤ value
      · simp [h]
      · simpa [h] using ih

theorem mapM_resolve_places (labels : Labels) (line : Nat) :
    (e.places.mapM fun x ↦ resolve labels line x.1 (x.1.text x.2)) =
      ((e.registers.find? (8 ≤ ·)).map fun index ↦ refusal (line, index)).elim
        (.ok e.operands) .error := by
  have hv : e.places.map Prod.snd = e.operands :=
    List.map_snd_zip (Nat.le_of_eq e.length_operands)
  rw [registers, map_find?_registers, ← hv]
  refine mapM_eq_elim_findSome? fun x _ ↦ ?_
  rw [resolve_text]
  by_cases h : x.1 = .register ∧ 8 ≤ x.2
  · rw [if_pos h, if_pos h]
    rfl
  · rw [if_neg h, if_neg h]
    rfl

theorem encode_statement (labels : Labels) (line : Nat) :
    (e.statement line).encode labels =
      ((e.registers.find? (8 ≤ ·)).map fun index ↦ refusal (line, index)).elim
        (.ok e.bytes) .error := by
  have he : (e.statement line).encode labels =
      (e.places.mapM fun x ↦ resolve labels line x.1 (x.1.text x.2)) >>=
        fun values ↦ .ok (e.instruction.opcode :: values) := by
    have hz := zip_zipWith_text e.instruction.slots e.operands
    change ((e.instruction.slots.zip e.operandTexts).mapM fun x ↦ resolve labels line x.1 x.2) >>=
      (fun values ↦ Except.ok ([e.instruction.opcode] ++ values)) = _
    rw [operandTexts, hz, List.mapM_map]
    rfl
  rw [he, mapM_resolve_places]
  cases (e.registers.find? (8 ≤ ·)).map fun index ↦ refusal (line, index) <;> rfl

theorem mapM_encode_statement (labels : Labels) (es : List Encoding) :
    ((es.zipIdx 1).map fun x ↦ x.1.statement x.2).mapM (·.encode labels) =
      ((stray? es).map refusal).elim (.ok (es.map bytes)) .error := by
  have hb : (es.zipIdx 1).map (fun x ↦ x.1.bytes) = es.map bytes := by
    have hmap : ((es.zipIdx 1).map Prod.fst).map bytes = es.map bytes := by
      rw [List.zipIdx_map_fst]
    rwa [List.map_map] at hmap
  have hf : (stray? es).map refusal = (es.zipIdx 1).findSome? fun x ↦
      (x.1.registers.find? (8 ≤ ·)).map fun index ↦ refusal (x.2, index) := by
    rw [stray?, List.map_findSome?]
    congr 1
    funext x
    exact Option.map_map _ _ _
  rw [List.mapM_map, hf, ← hb]
  exact mapM_eq_elim_findSome? fun x _ ↦ encode_statement x.1 labels x.2

theorem assemble_join (es : List Encoding) :
    assemble (['\n'].intercalate (es.map text)) =
      ((stray? es).map refusal).elim
        (if (es.flatMap bytes).length ≤ 256 then .ok (es.flatMap bytes)
          else .error (.programTooLarge (es.flatMap bytes).length))
        .error := by
  obtain ⟨layout, hl, hs⟩ := statements_join es
  have hm := mapM_encode_statement layout.labels es
  rw [← hs] at hm
  have ha : assemble (['\n'].intercalate (es.map text)) =
      layout.statements.toList.mapM (·.encode layout.labels) >>= fun encodings ↦
        if encodings.flatten.length ≤ 256 then .ok encodings.flatten
        else .error (.programTooLarge encodings.flatten.length) := by
    rw [assemble, hl]
    rfl
  rw [ha, hm]
  cases stray? es <;> rfl

end Encoding

/-- Disassembling instructions and assembling their texts, joined by line feeds, gives back their
bytes, where these are not too many and all their registers exist; and a sweep over the bytes gives
back the texts. -/
theorem assemble_disassembly (es : List Encoding) :
    ∃ texts, es.mapM (fun e ↦ disassemble e.bytes) = .ok texts ∧
      assemble ("\n".intercalate texts).toList =
        (match Encoding.stray? es with
        | some (line, index) =>
          .error (.invalidOperand line (String.ofList ('R' :: Numeral.decimal index.toNat)))
        | none =>
          if (es.flatMap Encoding.bytes).length ≤ 256 then .ok (es.flatMap Encoding.bytes)
          else .error (.programTooLarge (es.flatMap Encoding.bytes).length)) ∧
      sweep (es.flatMap Encoding.bytes) = .ok texts := by
  refine ⟨es.map fun e ↦ String.ofList e.text, ?_, ?_, sweep_bytes es⟩
  · rw [mapM_eq_ok_iff, List.forall₂_map_right_iff, List.forall₂_same]
    intro e _
    simpa using disassemble_append e []
  · have hj : ("\n".intercalate (es.map fun e ↦ String.ofList e.text)).toList =
        ['\n'].intercalate (es.map Encoding.text) := by
      rw [String.toList_intercalate, List.map_map]
      congr 2
      funext e
      exact String.toList_ofList
    rw [hj, Encoding.assemble_join]
    cases Encoding.stray? es <;> rfl

end ByteMachine
