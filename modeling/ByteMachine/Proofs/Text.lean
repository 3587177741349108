import ByteMachine.Text.Blank
import ByteMachine.Text.Pieces
import Mathlib.Data.List.TakeWhile

namespace ByteMachine.Text

theorem pieces_append_cons {separator : Char} {text : List Char} (h : separator ∉ text)
    (rest : List Char) :
    pieces separator (text ++ separator :: rest) = text :: pieces separator rest := by
  induction text with
  | nil => rw [List.nil_append, pieces_cons, if_pos rfl]
  | cons c text ih =>
    obtain ⟨hc, ht⟩ := List.ne_and_not_mem_of_not_mem_cons h
    rw [List.cons_append, pieces_cons, if_neg hc.symm, ih ht]
    rfl

theorem pieces_of_not_mem {separator : Char} {text : List Char} (h : separator ∉ text)
    (hne : text ≠ []) : pieces separator text = [text] := by
  induction text with
  | nil => exact absurd rfl hne
  | cons c text ih =>
    obtain ⟨hc, ht⟩ := List.ne_and_not_mem_of_not_mem_cons h
    rw [pieces_cons, if_neg hc.symm]
    cases text with
    | nil => rfl
    | cons d text =>
      rw [ih ht nofun]
      rfl

section

variable {p : Char → Bool} {text rest : List Char}

theorem takeWhile_append_of_head (ht : ∀ c ∈ text, p c) (hr : ∀ c ∈ rest.head?, p c = false) :
    (text ++ rest).takeWhile p = text := by
  rw [List.takeWhile_append_of_pos ht]
  cases rest with
  | nil => exact List.append_nil text
  | cons c rest => rw [List.takeWhile_cons_of_neg (by simp [hr c rfl]), List.append_nil]

theorem dropWhile_append_of_head (ht : ∀ c ∈ text, p c) (hr : ∀ c ∈ rest.head?, p c = false) :
    (text ++ rest).dropWhile p = rest := by
  rw [List.dropWhile_append_of_pos ht]
  cases rest with
  | nil => rfl
  | cons c rest => exact List.dropWhile_cons_of_neg (by simp [hr c rfl])

end

theorem infix_trim (text : List Char) : trim text <:+: text := by
  have hfront : (text.dropWhile isBlank).reverse.dropWhile isBlank <:+: text.reverse :=
    (List.dropWhile_suffix isBlank).isInfix.trans
      (List.reverse_infix.mpr (List.dropWhile_suffix isBlank).isInfix)
  rw [trim, ← List.reverse_infix, List.reverse_reverse]
  exact hfront

theorem infix_pieces (separator : Char) (text : List Char) :
    (∀ piece ∈ (pieces separator text).head?, piece <+: text) ∧
      ∀ piece ∈ pieces separator text, piece <:+: text := by
  induction text with
  | nil => exact ⟨nofun, nofun⟩
  | cons c text ih =>
    obtain ⟨hhead, hall⟩ := ih
    rw [pieces_cons]
    split
    · refine ⟨?_, ?_⟩
      · simp
      · intro piece hp
        obtain rfl | hp := List.mem_cons.mp hp
        · exact List.nil_infix
        · exact List.infix_cons (hall piece hp)
    · cases hs : pieces separator text with
      | nil =>
        have hc : [c] <+: c :: text := List.cons_prefix_cons.mpr ⟨rfl, List.nil_prefix⟩
        simpa [extend] using hc.isInfix
      | cons first rest =>
        rw [hs] at hhead hall
        have hc : c :: first <+: c :: text := List.cons_prefix_cons.mpr ⟨rfl, hhead first rfl⟩
        refine ⟨?_, ?_⟩
        · simpa [extend] using hhead first rfl
        · intro piece hp
          obtain rfl | hp := List.mem_cons.mp hp
          · exact hc.isInfix
          · exact List.infix_cons (hall piece (List.mem_cons_of_mem _ hp))

def Blanks (text : List Char) : Prop :=
  ∀ c ∈ text, isBlank c ∧ c ≠ '\n'

instance (text : List Char) : Decidable (Blanks text) :=
  List.decidableBAll (fun c ↦ isBlank c ∧ c ≠ '\n') text

structure Tight (text : List Char) : Prop where
  head : ∀ c ∈ text.head?, isBlank c = false
  last : ∀ c ∈ text.getLast?, isBlank c = false

theorem Blanks.nil : Blanks [] :=
  nofun

theorem Blanks.append_return {text : List Char} (h : Blanks text) : Blanks (text ++ ['\r']) :=
  List.forall_mem_append.mpr ⟨h, List.forall_mem_singleton.mpr (by decide)⟩

theorem Tight.nil : Tight [] :=
  ⟨nofun, nofun⟩

theorem Tight.of_forall {text : List Char} (h : ∀ c ∈ text, isBlank c = false) : Tight text :=
  ⟨fun c hc ↦ h c (List.mem_of_mem_head? hc), fun c hc ↦ h c (List.mem_of_mem_getLast? hc)⟩

theorem trim_append {before text after : List Char} (hb : Blanks before) (h : Tight text)
    (ha : Blanks after) : trim (before ++ text ++ after) = text := by
  cases text with
  | nil =>
    have hblank : ∀ c ∈ before ++ [] ++ after, isBlank c := by
      intro c hc
      rw [List.append_nil, List.mem_append] at hc
      exact hc.elim (fun h ↦ (hb c h).1) fun h ↦ (ha c h).1
    rw [trim, List.dropWhile_eq_nil_iff.mpr hblank]
    rfl
  | cons c text =>
    have hfront : (before ++ (c :: text) ++ after).dropWhile isBlank = c :: text ++ after := by
      rw [List.append_assoc]
      exact dropWhile_append_of_head (fun d hd ↦ (hb d hd).1) h.head
    have hback : (c :: text ++ after).reverse.dropWhile isBlank = (c :: text).reverse := by
      rw [List.reverse_append]
      refine dropWhile_append_of_head (fun d hd ↦ (ha d (List.mem_reverse.mp hd)).1) ?_
      rw [List.head?_reverse]
      exact h.last
    rw [trim, hfront, hback, List.reverse_reverse]

end ByteMachine.Text
