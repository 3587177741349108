import ByteMachine.Proofs.AssemblyCode
import ByteMachine.Proofs.AssemblyErrors

namespace ByteMachine.Assembly

open Text

/-- The operands as they are documented, with the bytes that they stand for. -/
inductive Documented (labels : Labels) : Slot → List Char → UInt8 → Prop
  | register {letter : Char} (index : Fin 8) (hl : letter = 'R' ∨ letter = 'r') :
      Documented labels .register [letter, index.val.digitChar] (UInt8.ofNat index)
  | decimal {digits : List Char} {value : UInt8} (hd : Numeral.Denotes 10 digits value.toNat) :
      Documented labels .immediate digits value
  | hexadecimal {digits : List Char} {value : UInt8}
      (hd : Numeral.Denotes 16 digits value.toNat) :
      Documented labels .immediate ('0' :: 'x' :: digits) value
  | binary {digits : List Char} {value : UInt8} (hd : Numeral.Denotes 2 digits value.toNat) :
      Documented labels .immediate ('0' :: 'b' :: digits) value
  | label {name : List Char} {address : Nat} (hi : isIdentifier name)
      (hl : labels.lookup name = some address) (ha : address ≤ 255) :
      Documented labels .immediate name (UInt8.ofNat address)

/-- The operands as they are accepted. -/
inductive Accepted (labels : Labels) : Slot → List Char → UInt8 → Prop
  | register {letter : Char} {digits : List Char} {index : Fin 8}
      (hl : letter = 'R' ∨ letter = 'r') (hd : Numeral.SignedDenotes 10 digits index) :
      Accepted labels .register (letter :: digits) (UInt8.ofNat index)
  | decimal {digits : List Char} {value : UInt8} (hd : Numeral.Denotes 10 digits value.toNat) :
      Accepted labels .immediate digits value
  | hexadecimal {digits : List Char} {value : UInt8}
      (hd : Numeral.SignedDenotes 16 digits value.toNat) :
      Accepted labels .immediate ('0' :: 'x' :: digits) value
  | binary {digits : List Char} {value : UInt8}
      (hd : Numeral.SignedDenotes 2 digits value.toNat) :
      Accepted labels .immediate ('0' :: 'b' :: digits) value
  | label {name : List Char} {address : Nat} (hi : isIdentifier name)
      (hl : labels.lookup name = some address) (ha : address ≤ 255) :
      Accepted labels .immediate name (UInt8.ofNat address)

variable {labels : Labels} {line : Nat} {slot : Slot} {text : List Char} {value : UInt8}

theorem toOption_map_eq_some_iff {answer : Except Numeral.Refusal Nat} :
    answer.toOption.map UInt8.ofNat = some value ↔ ∃ n, answer = .ok n ∧ UInt8.ofNat n = value := by
  cases answer with
  | error refusal => exact ⟨nofun, fun ⟨_, h, _⟩ ↦ nomatch h⟩
  | ok n => simp [Except.toOption]

theorem byte_of_read {base : Nat} (hb : base ≤ 16)
    (h : (Numeral.read base 255 text).toOption.map UInt8.ofNat = some value) :
    Numeral.SignedDenotes base text value.toNat :=
  (Numeral.exists_read_eq_ok_iff hb).mp (toOption_map_eq_some_iff.mp h)

theorem read_of_byte {base : Nat} (hb : base ≤ 16)
    (h : Numeral.SignedDenotes base text value.toNat) :
    (Numeral.read base 255 text).toOption.map UInt8.ofNat = some value :=
  toOption_map_eq_some_iff.mpr ((Numeral.exists_read_eq_ok_iff hb).mpr h)

theorem registerIndex?_eq_some_iff :
    registerIndex? text = some value ↔ Accepted labels .register text value := by
  constructor
  · intro h
    have hread : ∀ {digits}, (Numeral.read 10 7 digits).toOption.map UInt8.ofNat = some value →
        ∃ index : Fin 8, Numeral.SignedDenotes 10 digits index ∧ UInt8.ofNat index = value := by
      intro digits hd
      obtain ⟨n, hn, hv⟩ := toOption_map_eq_some_iff.mp hd
      obtain ⟨hd, hle⟩ := (Numeral.read_eq_ok_iff (by omega)).mp hn
      exact ⟨⟨n, Nat.lt_succ_of_le hle⟩, hd, hv⟩
    unfold registerIndex? at h
    split at h
    · obtain ⟨index, hd, rfl⟩ := hread h
      exact .register (.inl rfl) hd
    · obtain ⟨index, hd, rfl⟩ := hread h
      exact .register (.inr rfl) hd
    · cases h
  · intro h
    cases h with
    | @register letter digits index hl hd =>
      have hn : Numeral.read 10 7 digits = .ok index :=
        (Numeral.read_eq_ok_iff (by omega)).mpr ⟨hd, Nat.le_of_lt_succ index.isLt⟩
      obtain rfl | rfl := hl
      · rw [registerIndex?, hn]
        rfl
      · rw [registerIndex?, hn]
        rfl

theorem accepted_of_number? (hd : text.head?.any Char.isDigit) (hn : number? text = some value) :
    Accepted labels .immediate text value := by
  unfold number? at hn
  split at hn
  · exact .hexadecimal (byte_of_read (by omega) hn)
  · exact .binary (byte_of_read (by omega) hn)
  · obtain hdigits | ⟨digits, rfl, -⟩ := byte_of_read (by omega) hn
    · exact .decimal hdigits
    · cases hd

theorem resolveImmediate_eq_ok_iff :
    resolveImmediate labels line text = .ok value ↔ Accepted labels .immediate text value := by
  constructor
  · intro h
    rw [resolveImmediate] at h
    split at h
    · next hi =>
      split at h
      · cases h
      · next address hl =>
        split at h
        · next ha =>
          cases h
          exact .label hi hl (Nat.le_of_lt_succ ha)
        · cases h
    · split at h
      · next hd =>
        split at h
        · next value hn =>
          cases h
          exact accepted_of_number? hd hn
        · cases h
      · cases h
  · intro h
    cases h with
    | decimal hd => exact resolveImmediate_of_written labels line (.decimal hd)
    | hexadecimal hd =>
      exact resolveImmediate_of_number? labels line (by decide) (read_of_byte (by omega) hd)
    | binary hd =>
      exact resolveImmediate_of_number? labels line (by decide) (read_of_byte (by omega) hd)
    | label hi hl ha =>
      rw [resolveImmediate, if_pos hi, hl]
      exact if_pos (Nat.lt_succ_of_le ha)

theorem resolve_eq_ok_iff :
    resolve labels line slot text = .ok value ↔ Accepted labels slot text value := by
  cases slot with
  | register =>
    rw [← registerIndex?_eq_some_iff, resolve]
    cases registerIndex? text with
    | none =>
      constructor
      · intro h
        cases h
      · intro h
        cases h
    | some index => rw [Except.ok.injEq, Option.some.injEq]
  | immediate => exact resolveImmediate_eq_ok_iff

theorem Documented.accepted (h : Documented labels slot text value) :
    Accepted labels slot text value := by
  cases h with
  | @register letter index hl =>
    exact .register hl (.inl ⟨nofun, [index], .cons ⟨by omega, .inl rfl⟩ .nil, Nat.ofDigits_singleton⟩)
  | decimal hd => exact .decimal hd
  | hexadecimal hd => exact .hexadecimal (.inl hd)
  | binary hd => exact .binary (.inl hd)
  | label hi hl ha => exact .label hi hl ha

theorem isNameChar_digitChar (index : Fin 8) : isNameChar index.val.digitChar :=
  isNameChar_of_isDigit (show 8 ≤ 16 by omega) ⟨index.isLt, .inl rfl⟩

theorem Documented.word (h : Documented labels slot text value) : Word text := by
  cases h with
  | register index hl =>
    have hdigit : Word [index.val.digitChar] := .cons (isNameChar_digitChar index) nofun
    refine .cons ?_ hdigit.all
    obtain rfl | rfl := hl <;> rfl
  | decimal hd => exact .of_denotes (by omega) hd
  | hexadecimal hd => exact .cons rfl (Word.cons rfl (Word.of_denotes (by omega) hd).all).all
  | binary hd => exact .cons rfl (Word.cons rfl (Word.of_denotes (by omega) hd).all).all
  | label hi => exact .of_isIdentifier hi

theorem Documented.length_eq (h : Documented labels .register text value) : text.length = 2 := by
  cases h with
  | register => rfl

theorem denotes_of_not_mem {base n : Nat} (h : Numeral.SignedDenotes base text n)
    (hp : '+' ∉ text) : Numeral.Denotes base text n := by
  obtain hd | ⟨digits, rfl, -⟩ := h
  · exact hd
  · exact absurd List.mem_cons_self hp

theorem eq_digitChar_of_denotes {c : Char} {index : Fin 8} (h : Numeral.Denotes 10 [c] index) :
    c = index.val.digitChar := by
  obtain ⟨-, digits, hd, hn⟩ := h
  have hupper : ∀ d < 10, d.digitChar.toUpper = d.digitChar := by decide
  obtain _ | ⟨⟨hlt, hc⟩, ⟨⟩⟩ := hd
  rw [List.reverse_singleton, Nat.ofDigits_singleton] at hn
  rw [hn] at hlt hc
  obtain hc | hc := hc
  · exact hc
  · exact hc.trans (hupper index.val hlt)

/-- Of the operands that are accepted, those are documented that have no plus sign in them and, in a
register slot, no zeros in front of the number. -/
theorem Accepted.documented_iff (h : Accepted labels slot text value) :
    Documented labels slot text value ↔
      '+' ∉ text ∧ (slot = .register → text.length = 2) := by
  constructor
  · intro hd
    refine ⟨fun hp ↦ ?_, ?_⟩
    · cases hd.word.all '+' hp
    · rintro rfl
      exact hd.length_eq
  · rintro ⟨hp, hl⟩
    cases h with
    | @register letter digits index hletter hd =>
      obtain ⟨c, rfl⟩ := List.length_eq_one_iff.mp (Nat.succ.inj (hl rfl))
      have hdenotes := denotes_of_not_mem hd fun hm ↦ hp (List.mem_cons_of_mem _ hm)
      rw [eq_digitChar_of_denotes hdenotes]
      exact .register index hletter
    | decimal hd => exact .decimal hd
    | hexadecimal hd => exact .hexadecimal (denotes_of_not_mem hd fun hm ↦ hp (by simp [hm]))
    | binary hd => exact .binary (denotes_of_not_mem hd fun hm ↦ hp (by simp [hm]))
    | label hi hlookup ha => exact .label hi hlookup ha

theorem mapM_encode_eq_ok_iff {ss : List Statement} :
    (∃ encodings, ss.mapM (·.encode labels) = .ok encodings) ↔
      ∀ r ∈ ss.flatMap Statement.references, ∃ value, Accepted labels r.slot r.text value := by
  rw [← refusal?_eq_none_iff, refusal?_mapM_encode, List.findSome?_eq_none_iff]
  refine forall₂_congr fun r _ ↦ ?_
  rw [refusal?_eq_none_iff]
  exact exists_congr fun value ↦ resolve_eq_ok_iff

/-- A source is assembled if its lines can be laid out, memory holds it and each of its operands is
accepted; any other operand is rejected. What is accepted is documented as well, unless there is a
plus sign in it or the name of a register is longer than a letter and a digit. -/
theorem assembled_iff_accepted (source : List Char) :
    ((∃ code, assemble source = .ok code) ↔
      ∃ items layout, LaidOut source items layout ∧
        (∀ r ∈ references items, ∃ value, Accepted layout.labels r.slot r.text value) ∧
        ((statements items).map Statement.size).sum ≤ 256) ∧
    ∀ items layout, LaidOut source items layout → ∀ r ∈ references items, ∀ value,
      Accepted layout.labels r.slot r.text value →
        r.resolve layout.labels = .ok value ∧
        (Documented layout.labels r.slot r.text value ↔
          '+' ∉ r.text ∧ (r.slot = .register → r.text.length = 2)) := by
  refine ⟨⟨?_, ?_⟩, fun items layout _ r _ value ha ↦ ⟨resolve_eq_ok_iff.mpr ha, ha.documented_iff⟩⟩
  · rintro ⟨code, h⟩
    obtain ⟨layout, encodings, hl, he, rfl, hle⟩ := assemble_eq_ok_iff.mp h
    obtain ⟨items, hlaid⟩ := laidOut_of_ofSource hl
    have hmap := mapM_eq_ok_iff.mpr he
    rw [hlaid.statements_eq] at hmap he
    have hp : Passes source items layout encodings :=
      ⟨hlaid.reads, hl, hlaid.statements_eq, he⟩
    rw [hp.length_flatten] at hle
    exact ⟨items, layout, hlaid, mapM_encode_eq_ok_iff.mp ⟨encodings, hmap⟩, hle⟩
  · rintro ⟨items, layout, hlaid, hall, hle⟩
    obtain ⟨encodings, he, hlength⟩ := hlaid.mapM_encode_of_resolves fun r hr ↦
      (hall r hr).imp fun value ↦ resolve_eq_ok_iff.mpr
    refine ⟨encodings.flatten, assemble_eq_ok_iff.mpr
      ⟨layout, encodings, hlaid.layout_eq, mapM_eq_ok_iff.mp he, rfl, ?_⟩⟩
    rwa [hlength]

def padded : List Char :=
  "LDI R07,0x+5".toList

theorem assembled_iff_accepted_padded :
    ∃ items layout, LaidOut padded items layout ∧
      references items = [⟨1, .register, ['R', '0', '7']⟩, ⟨1, .immediate, ['0', 'x', '+', '5']⟩] ∧
      ∀ r ∈ references items, ∃ value, Accepted layout.labels r.slot r.text value ∧
        ¬ Documented layout.labels r.slot r.text value := by
  have hcode : assemble padded = .ok [0x82, 7, 5] := by decide
  obtain ⟨hassembled, hdocumented⟩ := assembled_iff_accepted padded
  obtain ⟨items, layout, hlaid, haccepted, -⟩ := hassembled.mp ⟨_, hcode⟩
  have hreferences : references items =
      [⟨1, .register, ['R', '0', '7']⟩, ⟨1, .immediate, ['0', 'x', '+', '5']⟩] :=
    hlaid.eq_of_map (·.flatMap Statement.references) rfl
  refine ⟨items, layout, hlaid, hreferences, fun r hr ↦ ?_⟩
  obtain ⟨value, ha⟩ := haccepted r hr
  obtain ⟨-, hd⟩ := hdocumented items layout hlaid r hr value ha
  refine ⟨value, ha, fun h ↦ ?_⟩
  obtain ⟨hplus, hlength⟩ := hd.mp h
  rw [hreferences, List.mem_pair] at hr
  obtain rfl | rfl := hr
  · cases hlength rfl
  · exact hplus (by decide)

/-- A plus sign in the name of a register is accepted, and is not documented. -/
theorem not_documented_of_assembled :
    ¬ ∀ (source : List Char) (code : List UInt8), assemble source = .ok code →
      ∀ items layout, LaidOut source items layout → ∀ r ∈ references items, ∃ value,
        Documented layout.labels r.slot r.text value := by
  intro h
  have hcode : assemble "PRN R+1".toList = .ok [0x47, 1] := by decide
  obtain ⟨layout, -, hl, -⟩ := assemble_eq_ok_iff.mp hcode
  obtain ⟨items, hlaid⟩ := laidOut_of_ofSource hl
  have hreferences : references items = [⟨1, .register, ['R', '+', '1']⟩] :=
    hlaid.eq_of_map (·.flatMap Statement.references) rfl
  obtain ⟨value, hd⟩ := h _ _ hcode items layout hlaid ⟨1, .register, ['R', '+', '1']⟩
    (hreferences ▸ List.mem_singleton_self _)
  cases hd.word.all '+' (by decide)

end ByteMachine.Assembly
