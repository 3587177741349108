import ByteMachine.ProgramError
import ByteMachine.Proofs.Text

namespace ByteMachine

namespace Text

variable {separator : Char} {text other line first last : List Char}
  {init rest : List (List Char)}

theorem splitOn_eq_pieces_append (separator : Char) (text : List Char) :
    ∃ n, text.splitOn separator = pieces separator text ++ List.replicate n [] := by
  induction text with
  | nil => exact ⟨1, rfl⟩
  | cons c text ih =>
    obtain ⟨n, hn⟩ := ih
    rw [List.splitOn_cons_eq_if_modifyHead, pieces_cons, hn]
    by_cases hc : c = separator
    · refine ⟨n, ?_⟩
      rw [if_pos (beq_iff_eq.mpr hc), if_pos hc]
      rfl
    · rw [if_neg (by simpa using hc), if_neg hc]
      cases hp : pieces separator text with
      | nil =>
        rw [hp, List.nil_append] at hn
        cases n with
        | zero => exact absurd hn (List.splitOn_ne_nil separator text)
        | succ n => exact ⟨n, rfl⟩
      | cons piece rest => exact ⟨n, rfl⟩

theorem length_splitOn (separator : Char) (text : List Char) :
    (text.splitOn separator).length = text.count separator + 1 := by
  induction text with
  | nil => rfl
  | cons c text ih =>
    rw [List.splitOn_cons_eq_if_modifyHead, List.count_cons]
    split <;> simp [ih]

theorem splitOn_append
    (ht : text.splitOn separator = init ++ [last]) (ho : other.splitOn separator = first :: rest) :
    (text ++ other).splitOn separator = init ++ (last ++ first) :: rest := by
  induction text generalizing init last with
  | nil =>
    obtain ⟨rfl, rfl⟩ : init = [] ∧ last = [] := by
      cases init with
      | nil => exact ⟨rfl, (List.cons.inj ht).1.symm⟩
      | cons row init => simp at ht
    exact ho
  | cons c text ih =>
    rw [List.splitOn_cons_eq_if_modifyHead] at ht
    rw [List.cons_append, List.splitOn_cons_eq_if_modifyHead]
    by_cases hc : c = separator
    · rw [if_pos (beq_iff_eq.mpr hc)] at ht ⊢
      cases init with
      | nil => exact absurd (List.cons.inj ht).2 (List.splitOn_ne_nil separator text)
      | cons row init =>
        obtain ⟨rfl, htail⟩ := List.cons.inj ht
        have hs : text.splitOn separator = init ++ [last] := htail
        rw [ih hs]
        rfl
    · rw [if_neg (by simpa using hc)] at ht ⊢
      cases hs : text.splitOn separator with
      | nil => exact absurd hs (List.splitOn_ne_nil separator text)
      | cons row rows =>
        rw [hs] at ht
        cases init with
        | nil =>
          obtain ⟨rfl, rfl⟩ := List.cons.inj ht
          have hlast : text.splitOn separator = [] ++ [row] := hs
          rw [ih hlast]
          rfl
        | cons grown init =>
          obtain ⟨rfl, rfl⟩ := List.cons.inj ht
          have hlast : text.splitOn separator = (row :: init) ++ [last] := hs
          rw [ih hlast]
          rfl

theorem splitOn_eq_append (separator : Char) (text : List Char) :
    ∃ init last, text.splitOn separator = init ++ [last] :=
  ⟨_, _, (List.dropLast_concat_getLast (List.splitOn_ne_nil separator text)).symm⟩

theorem splitOn_middle (ht : text.splitOn separator = init ++ [last])
    (ho : other.splitOn separator = first :: rest) (hn : separator ∉ line) :
    (text ++ line ++ other).splitOn separator = init ++ (last ++ line ++ first) :: rest :=
  splitOn_append (splitOn_append ht (List.splitOn_eq_singleton hn)) ho

theorem length_of_splitOn (ht : text.splitOn separator = init ++ [last]) :
    init.length = text.count separator := by
  have hl := length_splitOn separator text
  rw [ht, List.length_append, List.length_singleton] at hl
  exact Nat.succ.inj hl

end Text

def ProgramError.renumber (number : Nat → Nat) : ProgramError → ProgramError
  | invalidLiteral line text => invalidLiteral (number line) text
  | programTooLarge size => programTooLarge size
  | unknownMnemonic line word => unknownMnemonic (number line) word
  | operandCount line mnemonic expected found => operandCount (number line) mnemonic expected found
  | invalidOperand line operand => invalidOperand (number line) operand
  | undefinedLabel line label => undefinedLabel (number line) label
  | duplicateLabel line label => duplicateLabel (number line) label
  | unreadable cause => unreadable cause

end ByteMachine
