import ByteMachine.CommandLine.Options
import ByteMachine.Proofs.Numerals

namespace ByteMachine

namespace Text.Numeral

variable {base limit value n : Nat} {c : Char} {text : List Char} {reason : Refusal}

/-- Why a character is not read behind digits that make the number `n`: it is no digit, or one that
takes the number above the limit. -/
def Stops (base limit n : Nat) (c : Char) : Refusal → Prop
  | .empty => False
  | .invalidDigit => ∀ d, ¬ IsDigit base c d
  | .tooLarge => ∃ d, IsDigit base c d ∧ limit < n * base + d

/-- In front of a character stand digits only, perhaps none, and they make a number `n` within the
limit. -/
def ReadsUpTo (base limit : Nat) (text : List Char) (n : Nat) (c : Char) : Prop :=
  ∃ front rest digits, text = front ++ c :: rest ∧ List.Forall₂ (IsDigit base) front digits ∧
    Nat.ofDigits base digits.reverse = n ∧ n ≤ limit

def unsigned : List Char → List Char
  | '+' :: text => text
  | text => text

theorem readDigits_of_stops (hb : base ≤ 16) (h : Stops base limit value c reason)
    (text : List Char) : readDigits base limit value (c :: text) = .error reason := by
  cases reason with
  | empty => exact h.elim
  | invalidDigit =>
    rw [readDigits]
    split
    · rfl
    · next d hd =>
      obtain ⟨hd, hlt⟩ := Option.filter_eq_some_iff.mp hd
      exact absurd (isDigit_of_digitValue? hb hd (of_decide_eq_true hlt)) (h d)
  | tooLarge =>
    obtain ⟨d, hd, hl⟩ := h
    rw [readDigits_cons_of_isDigit hb hd, if_neg (Nat.not_le.mpr hl)]

theorem stops_or_isDigit (base limit value : Nat) (c : Char) :
    (∃ reason, Stops base limit value c reason) ∨
      ∃ d, IsDigit base c d ∧ value * base + d ≤ limit := by
  by_cases h : ∃ d, IsDigit base c d
  · obtain ⟨d, hd⟩ := h
    obtain hlt | hle := Nat.lt_or_ge limit (value * base + d)
    · exact .inl ⟨.tooLarge, d, hd, hlt⟩
    · exact .inr ⟨d, hd, hle⟩
  · exact .inl ⟨.invalidDigit, not_exists.mp h⟩

theorem readDigits_append {front : List Char}
    (h : readDigits base limit value front = .ok n) (rest : List Char) :
    readDigits base limit value (front ++ rest) = readDigits base limit n rest := by
  induction front generalizing value with
  | nil =>
    cases h
    rfl
  | cons c front ih =>
    rw [readDigits] at h
    rw [List.cons_append, readDigits]
    split at h
    · cases h
    · split at h
      · next hle =>
        rw [if_pos hle]
        exact ih h
      · cases h

theorem exists_stops_of_error (hb : base ≤ 16)
    (h : readDigits base limit value text = .error reason) :
    ∃ front c rest n, text = front ++ c :: rest ∧
      readDigits base limit value front = .ok n ∧ Stops base limit n c reason := by
  induction text generalizing value with
  | nil => cases h
  | cons c text ih =>
    obtain ⟨other, hs⟩ | ⟨d, hd, hle⟩ := stops_or_isDigit base limit value c
    · rw [readDigits_of_stops hb hs] at h
      cases h
      exact ⟨[], c, text, value, rfl, rfl, hs⟩
    · -- The character is read, and whatever stands behind it is read from the number made so far.
      have hstep (text : List Char) : readDigits base limit value (c :: text) =
          readDigits base limit (value * base + d) text := by
        rw [readDigits_cons_of_isDigit hb hd, if_pos hle]
      rw [hstep] at h
      obtain ⟨front, stop, rest, n, rfl, hn, hs⟩ := ih h
      exact ⟨c :: front, stop, rest, n, rfl, (hstep front).trans hn, hs⟩

theorem readDigits_eq_error_iff (hb : base ≤ 16) :
    readDigits base limit 0 text = .error reason ↔
      ∃ n c, ReadsUpTo base limit text n c ∧ Stops base limit n c reason := by
  constructor
  · intro h
    obtain ⟨front, c, rest, n, rfl, hn, hs⟩ := exists_stops_of_error hb h
    obtain ⟨digits, hd, hvalue⟩ := forall₂_of_readDigits hb hn
    have hle := readDigits_le (Nat.zero_le limit) hn
    exact ⟨n, c, ⟨front, rest, digits, rfl, hd, by simpa using hvalue.symm, hle⟩, hs⟩
  · rintro ⟨n, c, ⟨front, rest, digits, rfl, hd, rfl, hle⟩, hs⟩
    have hfront := readDigits_of_forall₂ hb hd 0 (by simpa using hle)
    rw [Nat.zero_mul, Nat.zero_add] at hfront
    rw [readDigits_append hfront]
    exact readDigits_of_stops hb hs rest

theorem unsigned_of_ne (hc : c ≠ '+') (text : List Char) : unsigned (c :: text) = c :: text := by
  rw [unsigned]
  intro rest h
  exact hc (List.cons.inj h).1

/-- Why a text is no number within the limit. The last case is that of the leftmost character at
which it stops being readable. -/
theorem read_eq_error_iff (hb : base ≤ 16) :
    read base limit text = .error reason ↔
      text = [] ∧ reason = .empty ∨ text = ['+'] ∧ reason = .invalidDigit ∨
        ∃ n c, ReadsUpTo base limit (unsigned text) n c ∧ Stops base limit n c reason := by
  rw [← readDigits_eq_error_iff hb]
  rcases text with _ | ⟨c, text⟩
  · simp [read, unsigned, readDigits, eq_comm]
  · by_cases hc : c = '+'
    · subst hc
      cases text with
      | nil => simp [read, unsigned, readDigits, eq_comm]
      | cons d text => simp [read, unsigned]
    · simp [read_cons hc, unsigned_of_ne hc, hc]

end Text.Numeral

namespace CommandLine

open Text

/-- A byte's number as it is spelled: in base sixteen behind `0x`, else in base ten. -/
structure Spelling where
  base : Nat
  numeral : List Char

def Spelling.ofText : List Char → Spelling
  | '0' :: 'x' :: numeral => ⟨16, numeral⟩
  | numeral => ⟨10, numeral⟩

variable {text : List Char}

theorem Spelling.ofText_cases (text : List Char) :
    (∃ numeral, text = '0' :: 'x' :: numeral ∧ ofText text = ⟨16, numeral⟩) ∨
      (∀ numeral, text ≠ '0' :: 'x' :: numeral) ∧ ofText text = ⟨10, text⟩ := by
  by_cases h : ∃ numeral, text = '0' :: 'x' :: numeral
  · obtain ⟨numeral, rfl⟩ := h
    exact .inl ⟨numeral, rfl, rfl⟩
  · have hne := not_exists.mp h
    refine .inr ⟨hne, ?_⟩
    rw [ofText]
    exact hne

theorem Spelling.base_le (text : List Char) : (ofText text).base ≤ 16 := by
  obtain ⟨numeral, -, hs⟩ | ⟨-, hs⟩ := ofText_cases text
  · rw [hs]
  · rw [hs]
    exact show 10 ≤ 16 by decide

theorem readByte_eq (text : List Char) :
    readByte text = (Numeral.read (Spelling.ofText text).base 255
      (Spelling.ofText text).numeral).map UInt8.ofNat := by
  obtain ⟨numeral, rfl, -⟩ | ⟨hne, hs⟩ := Spelling.ofText_cases text
  · rfl
  · rw [readByte, hs]
    exact hne

theorem Spelling.signedDenotes_iff {n : Nat} :
    Numeral.SignedDenotes (ofText text).base (ofText text).numeral n ↔
      Numeral.SignedDenotes 10 text n ∨
        ∃ numeral, text = '0' :: 'x' :: numeral ∧ Numeral.SignedDenotes 16 numeral n := by
  obtain ⟨numeral, rfl, hs⟩ | ⟨hne, hs⟩ := ofText_cases text
  · have hten : ¬ Numeral.SignedDenotes 10 ('0' :: 'x' :: numeral) n := by
      rintro (h | ⟨digits, h, -⟩)
      · cases Numeral.isDigit_of_denotes h 'x' (by simp)
      · cases h
    rw [hs]
    simp [hten]
  · rw [hs]
    simp [hne]

theorem Spelling.numeral_eq_nil_iff :
    (ofText text).numeral = [] ↔ text = [] ∨ text = ['0', 'x'] := by
  obtain ⟨numeral, rfl, hs⟩ | ⟨hne, hs⟩ := ofText_cases text
  · rw [hs]
    simp
  · rw [hs]
    simp [hne []]

theorem readByte_eq_ok_iff {value : UInt8} :
    readByte text = .ok value ↔
      Numeral.SignedDenotes (Spelling.ofText text).base (Spelling.ofText text).numeral
        value.toNat := by
  rw [readByte_eq, ← Numeral.exists_read_eq_ok_iff (Spelling.base_le text)]
  cases Numeral.read _ _ _ with
  | error reason => simp [Except.map]
  | ok n => simp [Except.map]

theorem readByte_eq_error_iff {reason : Numeral.Refusal} :
    readByte text = .error reason ↔
      (Spelling.ofText text).numeral = [] ∧ reason = .empty ∨
        (Spelling.ofText text).numeral = ['+'] ∧ reason = .invalidDigit ∨
        ∃ n c, Numeral.ReadsUpTo (Spelling.ofText text).base 255
            (Numeral.unsigned (Spelling.ofText text).numeral) n c ∧
          Numeral.Stops (Spelling.ofText text).base 255 n c reason := by
  rw [readByte_eq, ← Numeral.read_eq_error_iff (Spelling.base_le text)]
  cases Numeral.read _ _ _ with
  | error other => simp [Except.map]
  | ok n => simp [Except.map]

/-- A byte is read exactly from a decimal number, or a hexadecimal one behind `0x`, that is a byte,
with a plus sign and zeros in front of it or without. Of any other text the reason is that nothing
is there to read, or that a plus sign stands alone, or it is that of the leftmost character at which
the text stops being readable, whatever stands behind it. -/
theorem readByte_exactly (text : List Char) :
    let s := Spelling.ofText text
    (∀ value, readByte text = .ok value ↔
      Numeral.SignedDenotes 10 text value.toNat ∨
        ∃ numeral, text = '0' :: 'x' :: numeral ∧
          Numeral.SignedDenotes 16 numeral value.toNat) ∧
    (readByte text = .error .empty ↔ text = [] ∨ text = ['0', 'x']) ∧
    (readByte text = .error .invalidDigit ↔ s.numeral = ['+'] ∨
      ∃ n c, Numeral.ReadsUpTo s.base 255 (Numeral.unsigned s.numeral) n c ∧
        ∀ d, ¬ Numeral.IsDigit s.base c d) ∧
    (readByte text = .error .tooLarge ↔
      ∃ n c d, Numeral.ReadsUpTo s.base 255 (Numeral.unsigned s.numeral) n c ∧
        Numeral.IsDigit s.base c d ∧ 255 < n * s.base + d) := by
  intro s
  refine ⟨fun value ↦ readByte_eq_ok_iff.trans Spelling.signedDenotes_iff, ?_, ?_, ?_⟩
  · rw [readByte_eq_error_iff, ← Spelling.numeral_eq_nil_iff]
    simp [Numeral.Stops]
  · rw [readByte_eq_error_iff]
    simp [Numeral.Stops, s]
  · rw [readByte_eq_error_iff]
    simp [Numeral.Stops, s]

/-- The default of the stack pointer, as an argument. -/
example : readByte "0xf4".toList = .ok Registers.defaultTop := by
  decide

end CommandLine

end ByteMachine
