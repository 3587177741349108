import ByteMachine.Text.Numeral
import Mathlib.Data.List.Forall2
import Mathlib.Data.Nat.Digits.Defs

namespace ByteMachine.Text.Numeral

def IsDigit (base : Nat) (c : Char) (d : Nat) : Prop :=
  d < base ∧ (c = d.digitChar ∨ c = d.digitChar.toUpper)

/-- A number by its digits, the most significant first; zeros may stand in front. -/
def Denotes (base : Nat) (text : List Char) (n : Nat) : Prop :=
  text ≠ [] ∧ ∃ digits, List.Forall₂ (IsDigit base) text digits ∧
    Nat.ofDigits base digits.reverse = n

variable {base limit : Nat} {c : Char} {d : Nat}

theorem IsDigit.mono {base' : Nat} (h : IsDigit base c d) (hb : base ≤ base') :
    IsDigit base' c d :=
  ⟨Nat.lt_of_lt_of_le h.1 hb, h.2⟩

theorem IsDigit.elim {P : Char → Nat → Prop} (h : IsDigit base c d)
    (hP : ∀ d < base, P d.digitChar d ∧ P d.digitChar.toUpper d) : P c d := by
  obtain ⟨hd, hc⟩ := h
  obtain rfl | rfl := hc
  · exact (hP d hd).1
  · exact (hP d hd).2

theorem digitValue?_of_isDigit (hb : base ≤ 16) (h : IsDigit base c d) :
    digitValue? c = some d := by
  apply (h.mono hb).elim
  decide

theorem readDigits_cons_of_isDigit (hb : base ≤ 16) (h : IsDigit base c d) (value : Nat)
    (text : List Char) :
    readDigits base limit value (c :: text) =
      if value * base + d ≤ limit then readDigits base limit (value * base + d) text
      else .error .tooLarge := by
  rw [readDigits, digitValue?_of_isDigit hb h, Option.filter_some, if_pos (decide_eq_true h.1)]

theorem ofDigits_cons_reverse (value : Nat) (digits : List Nat) :
    value * base ^ (d :: digits).length + Nat.ofDigits base (d :: digits).reverse =
      (value * base + d) * base ^ digits.length + Nat.ofDigits base digits.reverse := by
  rw [List.reverse_cons, Nat.ofDigits_append, Nat.ofDigits_singleton, List.length_reverse,
    List.length_cons]
  ring

theorem readDigits_of_forall₂ (hb : base ≤ 16) {text : List Char} {digits : List Nat}
    (h : List.Forall₂ (IsDigit base) text digits) (value : Nat)
    (hl : value * base ^ digits.length + Nat.ofDigits base digits.reverse ≤ limit) :
    readDigits base limit value text =
      .ok (value * base ^ digits.length + Nat.ofDigits base digits.reverse) := by
  induction h generalizing value with
  | nil => simp [readDigits]
  | @cons c d text digits hc _ ih =>
    rw [ofDigits_cons_reverse] at hl ⊢
    have hle : value * base + d ≤ limit := by
      have hpos : 0 < base ^ digits.length := Nat.pow_pos (Nat.zero_lt_of_lt hc.1)
      have hmul := Nat.le_mul_of_pos_right (value * base + d) hpos
      omega
    rw [readDigits_cons_of_isDigit hb hc, if_pos hle]
    exact ih (value * base + d) hl

theorem readDigits_of_limit_lt (hb : base ≤ 16) {text : List Char} {digits : List Nat}
    (h : List.Forall₂ (IsDigit base) text digits) {value : Nat} (hv : value ≤ limit)
    (hl : limit < value * base ^ digits.length + Nat.ofDigits base digits.reverse) :
    readDigits base limit value text = .error .tooLarge := by
  induction h generalizing value with
  | nil =>
    simp only [List.length_nil, pow_zero, Nat.mul_one, List.reverse_nil, Nat.ofDigits_nil] at hl
    omega
  | @cons c d text digits hc _ ih =>
    rw [ofDigits_cons_reverse] at hl
    rw [readDigits_cons_of_isDigit hb hc]
    by_cases hle : value * base + d ≤ limit
    · rw [if_pos hle]
      exact ih hle hl
    · rw [if_neg hle]

theorem readDigits_le {text : List Char} {value n : Nat} (hv : value ≤ limit)
    (h : readDigits base limit value text = .ok n) : n ≤ limit := by
  induction text generalizing value with
  | nil =>
    cases h
    exact hv
  | cons c text ih =>
    rw [readDigits] at h
    split at h
    · cases h
    · split at h
      · next hle => exact ih hle h
      · cases h

theorem read_le {text : List Char} {n : Nat} (h : read base limit text = .ok n) : n ≤ limit := by
  unfold read at h
  split at h
  · cases h
  · cases h
  · exact readDigits_le (Nat.zero_le limit) h
  · exact readDigits_le (Nat.zero_le limit) h

theorem read_cons (hc : c ≠ '+') (text : List Char) :
    read base limit (c :: text) = readDigits base limit 0 (c :: text) := by
  rw [read]
  · nofun
  · intro h
    exact hc (List.cons.inj h).1
  · intro digits h
    exact hc (List.cons.inj h).1

theorem read_eq_readDigits (hb : base ≤ 16) {text : List Char} {n : Nat}
    (h : Denotes base text n) : read base limit text = readDigits base limit 0 text := by
  obtain ⟨hne, digits, hd, -⟩ := h
  cases hd with
  | nil => exact absurd rfl hne
  | @cons c d text digits hc _ =>
    refine read_cons ?_ text
    rintro rfl
    cases digitValue?_of_isDigit hb hc

theorem read_of_denotes (hb : base ≤ 16) {text : List Char} {n : Nat} (h : Denotes base text n)
    (hn : n ≤ limit) : read base limit text = .ok n := by
  rw [read_eq_readDigits hb h]
  obtain ⟨-, digits, hd, rfl⟩ := h
  simpa using readDigits_of_forall₂ hb hd 0 (by simpa using hn)

theorem read_of_limit_lt (hb : base ≤ 16) {text : List Char} {n : Nat} (h : Denotes base text n)
    (hn : limit < n) : read base limit text = .error .tooLarge := by
  rw [read_eq_readDigits hb h]
  obtain ⟨-, digits, hd, rfl⟩ := h
  exact readDigits_of_limit_lt hb hd (Nat.zero_le limit) (by simpa using hn)

theorem toNat_of_isDigit (h : c.isDigit) : '0'.toNat ≤ c.toNat ∧ c.toNat < '0'.toNat + 10 := by
  obtain ⟨hl, hu⟩ := Bool.and_eq_true_iff.mp h
  exact ⟨of_decide_eq_true hl, Nat.lt_succ_of_le (of_decide_eq_true hu)⟩

theorem toNat_of_isLower (h : c.isLower) : 'a'.toNat ≤ c.toNat := by
  obtain ⟨hl, -⟩ := Bool.and_eq_true_iff.mp h
  exact of_decide_eq_true hl

theorem toNat_of_isUpper (h : c.isUpper) : 'A'.toNat ≤ c.toNat := by
  obtain ⟨hl, -⟩ := of_decide_eq_true h
  exact hl

theorem isDigit_of_digitValue? (hb : base ≤ 16) (h : digitValue? c = some d) (hd : d < base) :
    IsDigit base c d := by
  have hdecimal : ∀ e < 10, Char.ofNat (e + '0'.toNat) = e.digitChar := by decide
  have hlower : ∀ e < 6, Char.ofNat (e + 'a'.toNat) = (e + 10).digitChar := by decide
  have hupper : ∀ e < 6, Char.ofNat (e + 'A'.toNat) = (e + 10).digitChar.toUpper := by decide
  have hof {n : Nat} (hn : n ≤ c.toNat) : c = Char.ofNat (c.toNat - n + n) := by
    rw [Nat.sub_add_cancel hn, Char.ofNat_toNat]
  rw [digitValue?] at h
  refine ⟨hd, ?_⟩
  split at h
  · next hc =>
    cases h
    obtain ⟨hle, hlt⟩ := toNat_of_isDigit hc
    exact .inl ((hof hle).trans (hdecimal _ (by omega)))
  · split at h
    · next hc =>
      cases h
      exact .inl ((hof (toNat_of_isLower hc)).trans (hlower _ (by omega)))
    · split at h
      · next hc =>
        cases h
        exact .inr ((hof (toNat_of_isUpper hc)).trans (hupper _ (by omega)))
      · cases h

theorem forall₂_of_readDigits (hb : base ≤ 16) {text : List Char} {value n : Nat}
    (h : readDigits base limit value text = .ok n) :
    ∃ digits, List.Forall₂ (IsDigit base) text digits ∧
      n = value * base ^ digits.length + Nat.ofDigits base digits.reverse := by
  induction text generalizing value with
  | nil =>
    cases h
    exact ⟨[], .nil, by simp⟩
  | cons c text ih =>
    rw [readDigits] at h
    split at h
    · cases h
    · next d hd =>
      obtain ⟨hd, hlt⟩ := Option.filter_eq_some_iff.mp hd
      split at h
      · obtain ⟨digits, hdigits, hn⟩ := ih h
        refine ⟨d :: digits, .cons (isDigit_of_digitValue? hb hd (of_decide_eq_true hlt)) hdigits, ?_⟩
        rw [hn, ofDigits_cons_reverse]
      · cases h

def SignedDenotes (base : Nat) (text : List Char) (n : Nat) : Prop :=
  Denotes base text n ∨ ∃ digits, text = '+' :: digits ∧ Denotes base digits n

theorem denotes_of_readDigits (hb : base ≤ 16) {text : List Char} {n : Nat} (hne : text ≠ [])
    (h : readDigits base limit 0 text = .ok n) : Denotes base text n := by
  obtain ⟨digits, hd, rfl⟩ := forall₂_of_readDigits hb h
  exact ⟨hne, digits, hd, by simp⟩

/-- Reading succeeds on what denotes a number within the limit, and a plus sign is passed over. -/
theorem read_eq_ok_iff (hb : base ≤ 16) {text : List Char} {n : Nat} :
    read base limit text = .ok n ↔ SignedDenotes base text n ∧ n ≤ limit := by
  constructor
  · intro h
    refine ⟨?_, read_le h⟩
    unfold read at h
    split at h
    · cases h
    · cases h
    · next digits hne => exact .inr ⟨digits, rfl, denotes_of_readDigits hb (by simpa using hne) h⟩
    · next hne _ _ => exact .inl (denotes_of_readDigits hb hne h)
  · rintro ⟨h | ⟨digits, rfl, h⟩, hn⟩
    · exact read_of_denotes hb h hn
    · have hr := read_of_denotes hb h hn
      rw [read_eq_readDigits hb h] at hr
      obtain ⟨hne, -⟩ := h
      rw [read]
      · exact hr
      · simpa using hne

theorem exists_read_eq_ok_iff (hb : base ≤ 16) {text : List Char} {value : UInt8} :
    (∃ n, read base 255 text = .ok n ∧ UInt8.ofNat n = value) ↔
      SignedDenotes base text value.toNat := by
  constructor
  · rintro ⟨n, hn, rfl⟩
    obtain ⟨hd, hle⟩ := (read_eq_ok_iff hb).mp hn
    rwa [UInt8.toNat_ofNat', Nat.mod_eq_of_lt (Nat.lt_succ_of_le hle)]
  · intro h
    have hle : value.toNat ≤ 255 := Nat.le_of_lt_succ value.toNat_lt
    exact ⟨value.toNat, (read_eq_ok_iff hb).mpr ⟨h, hle⟩, UInt8.ofNat_toNat⟩

theorem forall_of_denotes {P : Char → Prop} (hP : ∀ c d, IsDigit base c d → P c)
    {text : List Char} {n : Nat} (h : Denotes base text n) : ∀ c ∈ text, P c := by
  obtain ⟨_, digits, hd, _⟩ := h
  have hand : List.Forall₂ (fun c d ↦ P c ∧ IsDigit base c d) text digits :=
    hd.imp fun c d hc ↦ ⟨hP c d hc, hc⟩
  exact ((List.forall₂_and_left text digits).mp hand).1

theorem isDigit_of_denotes {text : List Char} {n : Nat} (h : Denotes 10 text n) :
    ∀ c ∈ text, c.isDigit := by
  refine forall_of_denotes (fun c d hc ↦ ?_) h
  apply hc.elim
  decide

theorem lt_of_forall₂ {text : List Char} {digits : List Nat}
    (h : List.Forall₂ (IsDigit base) text digits) : ∀ d ∈ digits, d < base := by
  induction h with
  | nil => nofun
  | cons hc _ ih => exact List.forall_mem_cons.mpr ⟨hc.1, ih⟩

theorem Denotes.lt_pow (hb : 1 < base) {text : List Char} {n : Nat} (h : Denotes base text n) :
    n < base ^ text.length := by
  obtain ⟨-, digits, hd, rfl⟩ := h
  have hlt := Nat.ofDigits_lt_base_pow_length hb fun d hm ↦
    lt_of_forall₂ hd d (List.mem_reverse.mp hm)
  rwa [List.length_reverse, ← hd.length_eq] at hlt

theorem denotes_toDigits (hb : 1 < base) (n : Nat) : Denotes base (Nat.toDigits base n) n := by
  refine ⟨Nat.toDigits_ne_nil, ?_⟩
  induction n using Nat.strong_induction_on with
  | _ n ih =>
    by_cases hn : n < base
    · rw [Nat.toDigits_of_lt_base hn]
      exact ⟨[n], .cons ⟨hn, .inl rfl⟩ .nil, Nat.ofDigits_singleton⟩
    · obtain ⟨digits, hd, hs⟩ := ih (n / base) (Nat.div_lt_self (by omega) hb)
      have hmod : n % base < base := Nat.mod_lt n (by omega)
      rw [Nat.toDigits_of_base_le hb (by omega)]
      refine ⟨digits ++ [n % base], List.rel_append hd (.cons ⟨hmod, .inl rfl⟩ .nil), ?_⟩
      rw [List.reverse_append, List.reverse_singleton, List.singleton_append, Nat.ofDigits_cons, hs]
      exact Nat.mod_add_div n base

theorem Denotes.zero_cons (hb : 0 < base) {text : List Char} {n : Nat} (h : Denotes base text n) :
    Denotes base ('0' :: text) n := by
  obtain ⟨-, digits, hd, hs⟩ := h
  refine ⟨nofun, 0 :: digits, .cons ⟨hb, .inl rfl⟩ hd, ?_⟩
  rw [List.reverse_cons, Nat.ofDigits_append, hs]
  simp

theorem denotes_write (hb : 1 < base) (width n : Nat) : Denotes base (write base width n) n := by
  rw [write, List.leftpad]
  induction width - (Nat.toDigits base n).length with
  | zero => exact denotes_toDigits hb n
  | succ zeros ih => exact ih.zero_cons (by omega)

theorem Denotes.map_toUpper (hb : base ≤ 16) {text : List Char} {n : Nat}
    (h : Denotes base text n) : Denotes base (text.map Char.toUpper) n := by
  have hupper {c : Char} {d : Nat} (hc : IsDigit base c d) : IsDigit base c.toUpper d := by
    refine ⟨hc.1, .inr ?_⟩
    apply (hc.mono hb).elim
    decide
  obtain ⟨hne, digits, hd, hs⟩ := h
  refine ⟨mt List.map_eq_nil_iff.mp hne, digits, ?_, hs⟩
  exact List.forall₂_map_left_iff.mpr (hd.imp fun _ _ hc ↦ hupper hc)

theorem denotes_upperHexadecimal (n : Nat) : Denotes 16 (upperHexadecimal n) n :=
  (denotes_write (by decide) 2 n).map_toUpper (Nat.le_refl 16)

end ByteMachine.Text.Numeral
