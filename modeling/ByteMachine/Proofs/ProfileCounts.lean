import ByteMachine.Profile
import Mathlib.Algebra.BigOperators.Group.List.Basic
import Mathlib.Algebra.GroupWithZero.Nat
import Mathlib.Data.List.Count

namespace ByteMachine

namespace Profile

def records (p : Profile) (is : List Instruction) : Profile :=
  is.foldl (fun p i ↦ p.record i.opcode) p

variable {p : Profile}

theorem countOf_record (p : Profile) (opcode other : UInt8) :
    (p.record opcode).countOf other = p.countOf other + if opcode = other then 1 else 0 := by
  rw [record, countOf]
  by_cases h : opcode = other
  · subst h
    rw [if_pos rfl]
    exact Vector.getElem_set_self _
  · have hne : opcode.toNat ≠ other.toNat := fun he ↦ h (UInt8.toNat_inj.mp he)
    rw [if_neg h]
    exact Vector.getElem_set_ne opcode.toNat_lt _ hne

theorem total_record (p : Profile) (opcode : UInt8) : (p.record opcode).total = p.total + 1 := by
  have hlt : opcode.toNat < p.counts.toList.length := by
    rw [Vector.length_toList]
    exact opcode.toNat_lt
  have hsplit := List.sum_take_add_sum_drop p.counts.toList (opcode.toNat + 1)
  rw [List.sum_take_succ _ _ hlt, Vector.getElem_toList] at hsplit
  have hset : (p.record opcode).total =
      (p.counts.toList.set opcode.toNat (p.countOf opcode + 1)).sum :=
    congrArg List.sum (Vector.toList_set opcode.toNat_lt)
  have htotal : p.total = p.counts.toList.sum := rfl
  rw [hset, List.sum_set, if_pos hlt, htotal, ← hsplit, countOf]
  omega

/-- A profile accounts for some instructions more than another. -/
structure Adds (p : Profile) (is : List Instruction) (q : Profile) : Prop where
  total : q.total = p.total + is.length
  count : ∀ i, q.count i = p.count i + is.count i

theorem countOf_foldl_record (p : Profile) (bytes : List UInt8) (opcode : UInt8) :
    (bytes.foldl record p).countOf opcode = p.countOf opcode + bytes.count opcode := by
  induction bytes generalizing p with
  | nil => rfl
  | cons byte bytes ih =>
    rw [List.foldl_cons, ih, countOf_record, List.count_cons]
    simp only [beq_iff_eq]
    omega

theorem total_foldl_record (p : Profile) (bytes : List UInt8) :
    (bytes.foldl record p).total = p.total + bytes.length := by
  induction bytes generalizing p with
  | nil => rfl
  | cons byte bytes ih =>
    rw [List.foldl_cons, ih, total_record, List.length_cons]
    omega

theorem records_eq_foldl (p : Profile) (is : List Instruction) :
    p.records is = (is.map Instruction.opcode).foldl record p :=
  List.foldl_map.symm

theorem adds_records (p : Profile) (is : List Instruction) : p.Adds is (p.records is) := by
  rw [records_eq_foldl]
  refine ⟨?_, fun i ↦ ?_⟩
  · rw [total_foldl_record, List.length_map]
  · rw [count, countOf_foldl_record, List.count_map_of_injective _ _ Instruction.opcode_injective]
    rfl

theorem countOf_records_replicate (p : Profile) (i : Instruction) (k : Nat) {opcode : UInt8}
    (h : opcode ≠ i.opcode) :
    (p.records (List.replicate k i)).countOf opcode = p.countOf opcode := by
  have hne : ¬ (i.opcode == opcode) = true := by simpa using h.symm
  rw [records_eq_foldl, List.map_replicate, countOf_foldl_record, List.count_replicate, if_neg hne,
    Nat.add_zero]

theorem total_empty : empty.total = 0 := by
  decide +kernel

theorem countOf_empty (opcode : UInt8) : empty.countOf opcode = 0 :=
  Vector.getElem_replicate _

theorem adds_empty {is : List Instruction} (h : empty.Adds is p) :
    p.total = is.length ∧ ∀ i, p.count i = is.count i := by
  refine ⟨?_, fun i ↦ ?_⟩
  · rw [h.total, total_empty, Nat.zero_add]
  · rw [h.count, count, countOf_empty, Nat.zero_add]

theorem sum_rows (p : Profile) :
    (p.rows.map Prod.snd).sum = (Instruction.all.map p.count).sum := by
  rw [rows, ((List.mergeSort_perm _ _).map _).sum_eq, List.map_map]
  generalize Instruction.all = is
  induction is with
  | nil => rfl
  | cons i is ih =>
    by_cases h : p.count i = 0
    · rw [List.filter_cons_of_neg (by simpa using h), ih, List.map_cons, List.sum_cons, h,
        Nat.zero_add]
    · rw [List.filter_cons_of_pos (by simpa using h), List.map_cons, List.sum_cons, ih,
        List.map_cons, List.sum_cons]
      rfl

theorem sum_count (is : List Instruction) :
    (Instruction.all.map fun i ↦ is.count i).sum = is.length := by
  induction is with
  | nil => rfl
  | cons i is ih =>
    have hone : (Instruction.all.map fun j ↦ if i == j then 1 else 0).sum = 1 := by
      cases i <;> rfl
    simp only [List.count_cons, List.sum_map_add, ih, hone, List.length_cons]

end Profile

end ByteMachine
