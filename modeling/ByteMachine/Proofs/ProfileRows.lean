import ByteMachine.Proofs.ProfileCounts
import Mathlib.Data.List.Dedup
import Mathlib.Data.String.Basic

namespace ByteMachine

namespace Instruction

theorem ofOpcode?_eq_some_iff {b : UInt8} {i : Instruction} :
    ofOpcode? b = some i ↔ b = i.opcode := by
  constructor
  · intro h
    exact (opcode_eq_of_ofOpcode? h).symm
  · rintro rfl
    exact i.ofOpcode?_opcode

theorem ofMnemonic?_mnemonic (i : Instruction) : ofMnemonic? i.mnemonic = some i := by
  cases i <;> rfl

theorem mnemonic_injective : Function.Injective mnemonic := by
  intro i j h
  have hi := i.ofMnemonic?_mnemonic
  rw [h, j.ofMnemonic?_mnemonic] at hi
  exact (Option.some.inj hi).symm

theorem nodup_all : all.Nodup := by
  decide

end Instruction

namespace Profile

variable {p : Profile}

/-- The profile of some bytes, opcodes or not, recorded one after the other. -/
def tally (bytes : List UInt8) : Profile :=
  bytes.foldl record empty

theorem countOf_tally (bytes : List UInt8) (opcode : UInt8) :
    (tally bytes).countOf opcode = bytes.count opcode := by
  rw [tally, countOf_foldl_record, countOf_empty, Nat.zero_add]

theorem total_tally (bytes : List UInt8) : (tally bytes).total = bytes.length := by
  rw [tally, total_foldl_record, total_empty, Nat.zero_add]

/-- The strict order of rows: the higher count first, and of equal counts the lesser mnemonic. -/
def Precedes (a b : String × Nat) : Prop :=
  b.2 < a.2 ∨ a.2 = b.2 ∧ a.1 < b.1

instance : DecidableRel Precedes :=
  fun a b ↦ inferInstanceAs (Decidable (b.2 < a.2 ∨ a.2 = b.2 ∧ a.1 < b.1))

variable {a b : String × Nat}

theorem precedes_or (hne : a ≠ b) : Precedes a b ∨ Precedes b a := by
  obtain ⟨name, n⟩ := a
  obtain ⟨other, m⟩ := b
  rcases Nat.lt_trichotomy n m with h | rfl | h
  · exact .inr (.inl h)
  · have hname : name ≠ other := fun he ↦ hne (congrArg (·, n) he)
    exact (lt_or_gt_of_ne hname).imp (fun hlt ↦ .inr ⟨rfl, hlt⟩) fun hlt ↦ .inr ⟨rfl, hlt⟩
  · exact .inl (.inl h)

theorem Precedes.asymm (h : Precedes a b) : ¬ Precedes b a := by
  rintro (hlt | ⟨he, hlt⟩)
  · rcases h with h | ⟨h, -⟩ <;> omega
  · rcases h with h | ⟨-, h⟩
    · omega
    · exact lt_asymm h hlt

theorem rowLE_iff : rowLE a b = true ↔ ¬ Precedes b a := by
  simp only [rowLE, Precedes, Bool.or_eq_true, Bool.and_eq_true, decide_eq_true_eq, beq_iff_eq,
    not_or, not_and, String.not_lt, Nat.not_lt]
  constructor
  · rintro (h | ⟨h, hle⟩)
    · exact ⟨Nat.le_of_lt h, fun he ↦ absurd he (Nat.ne_of_lt h)⟩
    · exact ⟨Nat.le_of_eq h.symm, fun _ ↦ hle⟩
  · rintro ⟨hle, h⟩
    obtain hlt | he := Nat.lt_or_eq_of_le hle
    · exact .inl hlt
    · exact .inr ⟨he.symm, h he⟩

theorem rowLE_total (a b : String × Nat) : (rowLE a b || rowLE b a) = true := by
  rw [Bool.or_eq_true, rowLE_iff, rowLE_iff]
  by_cases h : Precedes b a
  · exact .inr h.asymm
  · exact .inl h

theorem rowLE_trans (a b c : String × Nat) (hab : rowLE a b = true) (hbc : rowLE b c = true) :
    rowLE a c = true := by
  simp only [rowLE, Bool.or_eq_true, Bool.and_eq_true, decide_eq_true_eq, beq_iff_eq] at *
  rcases hab with hab | ⟨hab, hle⟩
  · left
    omega
  · rcases hbc with hbc | ⟨hbc, hle'⟩
    · left
      omega
    · exact .inr ⟨hab.trans hbc, String.le_trans hle hle'⟩

/-- The rows that some counts make, in whatever order the counts are kept: an entry for a byte that
is no opcode makes none. -/
def entryRows (entries : List (UInt8 × Nat)) : List (String × Nat) :=
  entries.filterMap fun (byte, n) ↦ (Instruction.ofOpcode? byte).map fun i ↦ (i.mnemonic, n)

/-- Counts of some bytes, in any order: one entry for each byte that occurs, with how often it
does. -/
structure Counts (bytes : List UInt8) (entries : List (UInt8 × Nat)) : Prop where
  nodup : (entries.map Prod.fst).Nodup
  mem_iff : ∀ byte n, (byte, n) ∈ entries ↔ byte ∈ bytes ∧ n = bytes.count byte

theorem counts_dedup (bytes : List UInt8) :
    Counts bytes (bytes.dedup.map fun byte ↦ (byte, bytes.count byte)) := by
  refine ⟨?_, fun byte n ↦ ?_⟩
  · rw [List.map_map]
    exact (List.map_id _).symm ▸ bytes.nodup_dedup
  · simp only [List.mem_map, List.mem_dedup, Prod.mk.injEq]
    constructor
    · rintro ⟨other, hm, rfl, rfl⟩
      exact ⟨hm, rfl⟩
    · rintro ⟨hm, rfl⟩
      exact ⟨byte, hm, rfl, rfl⟩

theorem eq_of_perm {rows others : List (String × Nat)} (hp : rows.Perm others)
    (hr : rows.Pairwise fun a b ↦ ¬ Precedes b a)
    (ho : others.Pairwise fun a b ↦ ¬ Precedes b a) : rows = others := by
  refine List.Perm.eq_of_pairwise (fun a b _ _ hab hba ↦ ?_) hr ho hp
  by_contra hne
  exact (precedes_or hne).elim hba hab

theorem pairwise_rows (p : Profile) : p.rows.Pairwise fun a b ↦ ¬ Precedes b a :=
  (List.pairwise_mergeSort rowLE_trans rowLE_total _).imp rowLE_iff.mp

theorem mem_rows {name : String} {n : Nat} :
    (name, n) ∈ p.rows ↔ ∃ i, p.count i ≠ 0 ∧ name = i.mnemonic ∧ n = p.count i := by
  simp only [rows, List.mem_mergeSort, List.mem_map, List.mem_filter, Instruction.mem_all, true_and,
    decide_eq_true_eq, Prod.mk.injEq]
  constructor
  · rintro ⟨i, hi, rfl, rfl⟩
    exact ⟨i, hi, rfl, rfl⟩
  · rintro ⟨i, hi, rfl, rfl⟩
    exact ⟨i, hi, rfl, rfl⟩

theorem nodup_rows (p : Profile) : (p.rows.map Prod.fst).Nodup := by
  have hp := ((List.mergeSort_perm ((Instruction.all.filter fun i ↦ p.count i ≠ 0).map fun i ↦
    (i.mnemonic, p.count i)) rowLE).map Prod.fst).nodup_iff
  rw [rows, hp, List.map_map]
  exact (Instruction.nodup_all.filter _).map Instruction.mnemonic_injective

theorem pairwise_precedes (p : Profile) : p.rows.Pairwise Precedes := by
  have hne : p.rows.Pairwise (· ≠ ·) := (nodup_rows p).of_map
  exact (p.pairwise_rows.and hne).imp fun h ↦ (precedes_or h.2).resolve_right h.1

theorem lookup_rows (p : Profile) (i : Instruction) :
    (p.rows.lookup i.mnemonic).getD 0 = p.count i := by
  by_cases h : p.count i = 0
  · have hnone : p.rows.lookup i.mnemonic = none := by
      rw [List.lookup_eq_none_iff]
      rintro ⟨name, n⟩ hm
      obtain ⟨j, hj, rfl, -⟩ := mem_rows.mp hm
      refine bne_iff_ne.mpr fun he ↦ hj ?_
      rwa [← Instruction.mnemonic_injective he]
    rw [hnone, h]
    rfl
  · have hm : (i.mnemonic, p.count i) ∈ p.rows := mem_rows.mpr ⟨i, h, rfl, rfl⟩
    obtain ⟨before, after, he⟩ := List.append_of_mem hm
    have hnames := p.nodup_rows
    rw [he, List.map_append, List.map_cons, List.nodup_middle, List.nodup_cons] at hnames
    have hsome : p.rows.lookup i.mnemonic = some (p.count i) := by
      rw [List.lookup_eq_some_iff]
      refine ⟨before, after, he, fun row hr ↦ bne_iff_ne.mpr fun heq ↦ hnames.1 ?_⟩
      exact List.mem_append_left _ (List.mem_map.mpr ⟨row, hr, heq.symm⟩)
    rw [hsome]
    rfl

theorem mem_rows_tally {bytes : List UInt8} {name : String} {n : Nat} :
    (name, n) ∈ (tally bytes).rows ↔
      ∃ i : Instruction, i.opcode ∈ bytes ∧ name = i.mnemonic ∧ n = bytes.count i.opcode := by
  simp only [mem_rows, count, countOf_tally, ne_eq, List.count_eq_zero, not_not]

theorem perm_entryRows {bytes : List UInt8} {entries : List (UInt8 × Nat)}
    (h : Counts bytes entries) : (entryRows entries).Perm (tally bytes).rows := by
  have hentries : (entryRows entries).Nodup := by
    refine List.Nodup.filterMap ?_ h.nodup.of_map
    rintro ⟨byte, n⟩ ⟨other, m⟩ row hb ho
    obtain ⟨i, hi, rfl⟩ := Option.map_eq_some_iff.mp hb
    obtain ⟨j, hj, he⟩ := Option.map_eq_some_iff.mp ho
    obtain ⟨hname, rfl⟩ := Prod.mk.inj he
    cases Instruction.mnemonic_injective hname
    rw [Instruction.ofOpcode?_eq_some_iff.mp hi, Instruction.ofOpcode?_eq_some_iff.mp hj]
  refine (List.perm_ext_iff_of_nodup hentries (tally bytes).nodup_rows.of_map).mpr ?_
  rintro ⟨name, n⟩
  rw [mem_rows_tally, entryRows, List.mem_filterMap]
  constructor
  · rintro ⟨⟨byte, m⟩, hm, hr⟩
    obtain ⟨i, hi, he⟩ := Option.map_eq_some_iff.mp hr
    cases he
    obtain rfl := Instruction.ofOpcode?_eq_some_iff.mp hi
    obtain ⟨hmem, rfl⟩ := (h.mem_iff _ _).mp hm
    exact ⟨i, hmem, rfl, rfl⟩
  · rintro ⟨i, hi, rfl, rfl⟩
    refine ⟨(i.opcode, bytes.count i.opcode), (h.mem_iff _ _).mpr ⟨hi, rfl⟩, ?_⟩
    simp only [Instruction.ofOpcode?_opcode, Option.map_some]

theorem sum_rows_tally (bytes : List UInt8) :
    ((tally bytes).rows.map Prod.snd).sum +
      bytes.countP (fun b ↦ (Instruction.ofOpcode? b).isNone) = bytes.length := by
  -- The bytes that are opcodes stand for instructions, and the counts of these sum up.
  have hcount (i : Instruction) :
      (tally bytes).count i = (bytes.filterMap Instruction.ofOpcode?).count i := by
    rw [count, countOf_tally, List.count_filterMap, List.count]
    refine List.countP_congr fun byte _ ↦ ?_
    simp only [beq_iff_eq, Instruction.ofOpcode?_eq_some_iff]
  rw [sum_rows, funext hcount, sum_count, List.length_filterMap_eq_countP,
    List.length_eq_countP_add_countP (fun b ↦ (Instruction.ofOpcode? b).isSome)]
  simp only [Bool.not_eq_true, Option.isSome_eq_false_iff, Bool.decide_eq_true]

/-- The rows of a profile are canonical. Whatever bytes were recorded, there is one row for each
opcode among them, with how often it occurs, and the rows are in strict order. So they do not depend
on the order of the bytes, and counts that are kept in any order make them, however they are put in
order. The total counts all the bytes, an instruction counts what its row says, and the rows and the
bytes that are no opcodes make up the total. -/
theorem rows_canonical (bytes : List UInt8) :
    (∀ name n, (name, n) ∈ (tally bytes).rows ↔
      ∃ i : Instruction, i.opcode ∈ bytes ∧ name = i.mnemonic ∧ n = bytes.count i.opcode) ∧
    ((tally bytes).rows.map Prod.fst).Nodup ∧
    (tally bytes).rows.Pairwise Precedes ∧
    (∀ others, others.Perm bytes → (tally others).rows = (tally bytes).rows) ∧
    (∀ entries, Counts bytes entries →
      ∀ rows, rows.Perm (entryRows entries) ∧ (rows.Pairwise fun a b ↦ ¬ Precedes b a) ↔
        rows = (tally bytes).rows) ∧
    (tally bytes).total = bytes.length ∧
    (∀ i, (tally bytes).count i = bytes.count i.opcode ∧
      (tally bytes).count i = ((tally bytes).rows.lookup i.mnemonic).getD 0) ∧
    ((tally bytes).rows.map Prod.snd).sum +
      bytes.countP (fun b ↦ (Instruction.ofOpcode? b).isNone) = (tally bytes).total := by
  refine ⟨fun name n ↦ mem_rows_tally, (tally bytes).nodup_rows, (tally bytes).pairwise_precedes,
    fun others hp ↦ ?_, fun entries he rows ↦ ⟨?_, ?_⟩, total_tally bytes, fun i ↦ ⟨?_, ?_⟩, ?_⟩
  · have hcount : (tally others).count = (tally bytes).count := by
      funext i
      rw [count, count, countOf_tally, countOf_tally, hp.count_eq]
    rw [rows, rows, hcount]
  · rintro ⟨hp, hr⟩
    exact eq_of_perm (hp.trans (perm_entryRows he)) hr (tally bytes).pairwise_rows
  · rintro rfl
    exact ⟨(perm_entryRows he).symm, (tally bytes).pairwise_rows⟩
  · exact countOf_tally bytes i.opcode
  · exact ((tally bytes).lookup_rows i).symm
  · rw [total_tally]
    exact sum_rows_tally bytes

def mixed : List UInt8 :=
  [0x82, 0x47, 0xFF, 0x82, 0x01]

theorem rows_canonical_mixed :
    (tally mixed.reverse).rows = [("LDI", 2), ("HLT", 1), ("PRN", 1)] ∧
      Counts mixed [(0x47, 1), (0xFF, 1), (0x82, 2), (0x01, 1)] ∧
      (tally mixed).rows = [("LDI", 2), ("HLT", 1), ("PRN", 1)] := by
  have hcounts : Counts mixed [(0x47, 1), (0xFF, 1), (0x82, 2), (0x01, 1)] := counts_dedup mixed
  have hperm : [("LDI", 2), ("HLT", 1), ("PRN", 1)].Perm
      (entryRows [(0x47, 1), (0xFF, 1), (0x82, 2), (0x01, 1)]) := by decide
  have horder : [("LDI", 2), ("HLT", 1), ("PRN", 1)].Pairwise fun a b ↦ ¬ Precedes b a := by decide
  obtain ⟨-, -, -, hothers, hentries, -⟩ := rows_canonical mixed
  have hrows := (hentries _ hcounts _).mp ⟨hperm, horder⟩
  exact ⟨(hothers _ mixed.reverse_perm).trans hrows.symm, hcounts, hrows.symm⟩

end Profile

end ByteMachine
