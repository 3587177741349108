import ByteMachine.CommandLine.Report
import ByteMachine.Proofs.ProfileRows
import Mathlib.Data.Set.List

namespace ByteMachine

open Profile

/-- A word, moved to the right if it takes less than four places. -/
def column (word : String) : String :=
  String.ofList (List.replicate (4 - word.length) ' ') ++ word

/-- The lines that count some instructions. Each that occurs has one, the more frequent first and
the lesser mnemonic of two that are as frequent, and the last line tells how many they all are. -/
inductive Enumerates (is : List Instruction) : List String → Prop
  | mk (ranking : List Instruction) (mem_iff : ∀ i, i ∈ ranking ↔ i ∈ is)
      (order : ranking.Pairwise fun i j ↦
        Precedes (i.mnemonic, is.count i) (j.mnemonic, is.count j)) :
      Enumerates is
        (ranking.map (fun i ↦ column i.mnemonic ++ " " ++ (is.count i).repr) ++
          ["total " ++ is.length.repr])

variable {is : List Instruction} {lines others : List String}

theorem Enumerates.unique (h : Enumerates is lines) (h' : Enumerates is others) :
    lines = others := by
  have hnodup {ranking : List Instruction} (order : ranking.Pairwise fun i j ↦
      Precedes (i.mnemonic, is.count i) (j.mnemonic, is.count j)) : ranking.Nodup := by
    refine order.imp ?_
    rintro i _ hi rfl
    exact hi.asymm hi
  cases h with
  | mk ranking hmem order =>
    cases h' with
    | mk ranking' hmem' order' =>
      have hperm : ranking.Perm ranking' := by
        rw [List.perm_ext_iff_of_nodup (hnodup order) (hnodup order')]
        intro i
        rw [hmem, hmem']
      have heq : ranking = ranking' :=
        List.Perm.eq_of_pairwise (fun _ _ _ _ h h' ↦ absurd h' h.asymm) order order' hperm
      rw [heq]

theorem ofList_leftpad (word : String) :
    String.ofList (word.toList.leftpad 4 ' ') = column word := by
  rw [List.leftpad, String.ofList_append, String.ofList_toList, column, String.length_toList]

/-- The lines of a profile that counts some instructions. -/
theorem enumerates_profileLines {p : Profile} (ht : p.total = is.length)
    (hc : ∀ i, p.count i = is.count i) : Enumerates is (CommandLine.profileLines p) := by
  have hrange : p.rows ∈ Set.range (List.map fun i : Instruction ↦ (i.mnemonic, is.count i)) := by
    rw [Set.range_list_map]
    rintro ⟨name, n⟩ hm
    obtain ⟨i, -, rfl, rfl⟩ := mem_rows.mp hm
    exact ⟨i, congrArg (i.mnemonic, ·) (hc i).symm⟩
  obtain ⟨ranking, hrows⟩ := hrange
  have hlines : CommandLine.profileLines p =
      ranking.map (fun i ↦ column i.mnemonic ++ " " ++ (is.count i).repr) ++
        ["total " ++ is.length.repr] := by
    rw [CommandLine.profileLines, ← hrows, List.map_map, ht]
    refine congrArg (· ++ ["total " ++ is.length.repr]) (List.map_congr_left ?_)
    intro i _
    simp only [Function.comp_apply, ofList_leftpad, String.append_assoc]
    rfl
  rw [hlines]
  refine .mk ranking ?_ ?_
  · intro i
    have hinj : Function.Injective fun i : Instruction ↦ (i.mnemonic, is.count i) :=
      fun _ _ h ↦ Instruction.mnemonic_injective (Prod.mk.inj h).1
    rw [← List.mem_map_of_injective hinj, hrows, mem_rows, ← List.count_pos_iff]
    constructor
    · rintro ⟨j, hj, hname, -⟩
      rw [Instruction.mnemonic_injective hname, ← hc]
      exact Nat.pos_of_ne_zero hj
    · intro hi
      exact ⟨i, by rw [hc]; exact hi.ne', rfl, (hc i).symm⟩
  · rw [← List.pairwise_map, hrows]
    exact p.pairwise_precedes

end ByteMachine
