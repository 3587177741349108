import ByteMachine.Memory
import ByteMachine.Proofs.Answers
import Mathlib.Data.List.Induction

namespace ByteMachine

inductive Access
  | read (address : Nat)
  | write (address : Nat) (value : UInt8)
  | load (program : List UInt8)

/-- What an access puts into a cell, if it succeeds and reaches the cell. -/
def Access.puts? (address : Nat) : Access → Option UInt8
  | read _ => none
  | write other value => if other = address then some value else none
  | load program => if program.length ≤ 256 then program[address]? else none

namespace Memory

/-- What an access answers, a byte if it reads one, and the memory behind it. -/
def access (m : Memory) : Access → Except Fault (Option UInt8) × Memory
  | .read address => ((m.read address).map some, m)
  | .write address value =>
    match m.write address value with
    | .ok memory => (.ok none, memory)
    | .error fault => (.error fault, m)
  | .load program =>
    match m.load program with
    | .ok memory => (.ok none, memory)
    | .error fault => (.error fault, m)

def accesses (m : Memory) (xs : List Access) : Memory :=
  xs.foldl (fun m x ↦ (m.access x).2) m

variable {m n : Memory} {address : Nat} {fault : Fault}

theorem read_of_lt (m : Memory) (h : address < 256) : m.read address = .ok m.cells[address] :=
  dif_pos h

theorem read_eq_error_iff :
    m.read address = .error fault ↔ 256 ≤ address ∧ fault = .outOfRangeAddress address := by
  rw [read, guarded_eq_error_iff, Nat.not_lt]

theorem write_eq_error_iff {value : UInt8} :
    m.write address value = .error fault ↔ 256 ≤ address ∧ fault = .outOfRangeAddress address := by
  rw [write, guarded_eq_error_iff, Nat.not_lt]

theorem load_eq_error_iff {program : List UInt8} :
    m.load program = .error fault ↔
      256 < program.length ∧ fault = .load (.programTooLarge program.length) := by
  rw [load, ← dite_eq_ite, guarded_eq_error_iff, Nat.not_le]

theorem read_of_write {other : Nat} {value : UInt8} (h : m.write other value = .ok n)
    (ha : address < 256) :
    n.read address = if other = address then .ok value else m.read address := by
  rw [write] at h
  split at h
  · cases h
    rw [read_of_lt _ ha, read_of_lt _ ha, Vector.getElem_set]
    exact apply_ite Except.ok _ _ _
  · cases h

theorem read_of_load {program : List UInt8} (h : m.load program = .ok n) (ha : address < 256) :
    n.read address = (program[address]?).elim (m.read address) .ok := by
  rw [load] at h
  split at h
  · obtain rfl := Except.ok.inj h
    rw [read_of_lt _ ha, read_of_lt _ ha, Vector.getElem_ofFn, List.getD_eq_getElem?_getD]
    cases program[address]? <;> rfl
  · cases h

/-- The step lemma: an access that puts a value into a cell leaves it there, and any other leaves
the cell as it was. -/
theorem read_access (m : Memory) (x : Access) (ha : address < 256) :
    (m.access x).2.read address = (x.puts? address).elim (m.read address) .ok := by
  cases x with
  | read other => rfl
  | write other value =>
    rw [access, Access.puts?]
    cases h : m.write other value with
    | error fault =>
      -- A write that fails is to no cell at all.
      have hne : other ≠ address := by
        have hle := (write_eq_error_iff.mp h).1
        omega
      rw [if_neg hne]
      rfl
    | ok n =>
      dsimp only
      rw [read_of_write h ha]
      split <;> rfl
  | load program =>
    rw [access, Access.puts?]
    cases h : m.load program with
    | error fault =>
      rw [if_neg (Nat.not_le.mpr (load_eq_error_iff.mp h).1)]
      rfl
    | ok n =>
      have hle : program.length ≤ 256 := by
        by_contra hlt
        rw [load, if_neg hlt] at h
        cases h
      dsimp only
      rw [read_of_load h ha, if_pos hle]

/-- The run lemma, by induction on the accesses from the last one on. -/
theorem read_accesses (m : Memory) (xs : List Access) (ha : address < 256) :
    (m.accesses xs).read address =
      (xs.reverse.findSome? (Access.puts? address)).elim (m.read address) .ok := by
  induction xs using List.reverseRecOn with
  | nil => rfl
  | append_singleton xs x ih =>
    rw [accesses, List.foldl_append, List.foldl_cons, List.foldl_nil, ← accesses,
      read_access _ _ ha, ih, List.reverse_concat, List.findSome?_cons]
    cases x.puts? address <;> rfl

theorem access_of_error {x : Access} (h : (m.access x).1 = .error fault) : (m.access x).2 = m := by
  cases x with
  | read address => rfl
  | write address value =>
    rw [access] at h ⊢
    cases hw : m.write address value with
    | error other => rfl
    | ok n =>
      rw [hw] at h
      cases h
  | load program =>
    rw [access] at h ⊢
    cases hl : m.load program with
    | error other => rfl
    | ok n =>
      rw [hl] at h
      cases h

theorem read_of_load_of_le {program : List UInt8} (h : m.load program = .ok n)
    (hle : program.length ≤ address) : n.read address = m.read address := by
  by_cases ha : address < 256
  · rw [read_of_load h ha, List.getElem?_eq_none hle]
    rfl
  · have hout := Nat.not_lt.mp ha
    rw [read_eq_error_iff.mpr ⟨hout, rfl⟩, read_eq_error_iff.mpr ⟨hout, rfl⟩]

/-- The last write wins. Whatever was done to a memory that was blank, a cell holds what the latest
access that reached it has put there, and zero if none has. Reading and writing fail exactly outside
memory, and loading exactly if the program is longer than memory; what fails changes nothing, and a
program that is loaded leaves the cells behind it as they were. -/
theorem last_write_wins (xs : List Access) :
    (∀ address < 256, (blank.accesses xs).read address =
      .ok ((xs.reverse.findSome? (Access.puts? address)).getD 0)) ∧
    (∀ address fault, (blank.accesses xs).read address = .error fault ↔
      256 ≤ address ∧ fault = .outOfRangeAddress address) ∧
    (∀ address value fault, (blank.accesses xs).write address value = .error fault ↔
      256 ≤ address ∧ fault = .outOfRangeAddress address) ∧
    (∀ program fault, (blank.accesses xs).load program = .error fault ↔
      256 < program.length ∧ fault = .load (.programTooLarge program.length)) ∧
    (∀ x fault, ((blank.accesses xs).access x).1 = .error fault →
      ((blank.accesses xs).access x).2 = blank.accesses xs) ∧
    ∀ program memory, (blank.accesses xs).load program = .ok memory →
      ∀ address, program.length ≤ address →
        memory.read address = (blank.accesses xs).read address := by
  refine ⟨fun address ha ↦ ?_, fun _ _ ↦ read_eq_error_iff, fun _ _ _ ↦ write_eq_error_iff,
    fun _ _ ↦ load_eq_error_iff, fun _ _ h ↦ access_of_error h,
    fun _ _ h _ hle ↦ read_of_load_of_le h hle⟩
  have hblank : blank.read address = .ok 0 := by
    simp only [read_of_lt _ ha, blank, Vector.getElem_replicate]
  rw [read_accesses _ _ ha, hblank]
  cases xs.reverse.findSome? (Access.puts? address) <;> rfl

def overlapping : List Access :=
  [.load [1, 2, 3], .write 1 9, .load [7], .read 2, .write 256 5, .load (List.replicate 257 4)]

theorem last_write_wins_overlapping :
    ((blank.accesses overlapping).read 0 = .ok 7 ∧ (blank.accesses overlapping).read 1 = .ok 9 ∧
      (blank.accesses overlapping).read 2 = .ok 3 ∧
      (blank.accesses overlapping).read 255 = .ok 0) ∧
    (blank.accesses overlapping).read 256 = .error (.outOfRangeAddress 256) ∧
    ((blank.accesses overlapping).access (.write 300 1)).2 = blank.accesses overlapping := by
  have hlatest : [0, 1, 2, 255].map (fun address ↦
      (overlapping.reverse.findSome? (Access.puts? address)).getD 0) = [7, 9, 3, 0] := by
    decide +kernel
  simp only [List.map_cons, List.map_nil, List.cons.injEq, and_true] at hlatest
  obtain ⟨hzero, hone, htwo, hlast⟩ := hlatest
  obtain ⟨hread, hfails, -, -, hkeeps, -⟩ := last_write_wins overlapping
  refine ⟨⟨?_, ?_, ?_, ?_⟩, ?_, ?_⟩
  · rw [hread 0 (by decide), hzero]
  · rw [hread 1 (by decide), hone]
  · rw [hread 2 (by decide), htwo]
  · rw [hread 255 (by decide), hlast]
  · exact (hfails 256 _).mpr ⟨Nat.le_refl 256, rfl⟩
  · exact hkeeps (.write 300 1) (.outOfRangeAddress 300) rfl

end Memory

end ByteMachine
