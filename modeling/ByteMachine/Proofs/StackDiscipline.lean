import ByteMachine.Proofs.Iteration
import ByteMachine.Proofs.TableAgreement
import Mathlib.Algebra.BigOperators.Group.Finset.Basic
import Mathlib.Data.Finset.Lattice.Fold
import Mathlib.Order.Lattice.Nat

namespace ByteMachine

open InstructionTable

/-- What is put on the stack: a value, or the way back to the instruction behind a call. -/
inductive Entry
  | value (value : UInt8)
  | back (call : Nat)
  deriving DecidableEq

def Entry.byte : Entry → UInt8
  | .value byte => byte
  | .back call => UInt8.ofNat (call + 2)

inductive Move
  | push (entry : Entry)
  | pop
  | stay
  deriving DecidableEq

namespace Move

def apply (stack : List Entry) : Move → List Entry
  | push entry => entry :: stack
  | pop => stack.tail
  | stay => stack

def rise : Move → Int
  | push _ => 1
  | pop => -1
  | stay => 0

end Move

namespace InstructionTable.State

variable (s : State)

def instruction? : Option Instruction :=
  Instruction.ofOpcode? (s.code s.pc)

def move : Move :=
  match s.instruction? with
  | some .push => .push (.value (s.register s.first))
  | some .call => .push (.back s.pc)
  | some .pop | some .ret => .pop
  | _ => .stay

def setsPointer : Bool :=
  s.instruction?.any (· ∈ [.loadImmediate, .add, .sub, .mul, .div, .pop]) && s.first = 7

end InstructionTable.State

namespace Computer

variable (c : Computer)

def moment (k : Nat) : State :=
  (c.after k).view

/-- The number of entries put on the stack in some steps, less the number of those taken off. -/
def depth (n : Nat) : Int :=
  ∑ k ∈ Finset.range n, (c.moment k).move.rise

def peak (n : Nat) : Nat :=
  (Finset.range (n + 1)).sup fun k ↦ (c.depth k).toNat

/-- The abstract stack, the last entry first. -/
def stack : Nat → List Entry
  | 0 => []
  | n + 1 => (c.moment n).move.apply (stack n)

/-- A step puts on the stack what a later step takes off: all between them stands above it. -/
structure Matching (j k : Nat) : Prop where
  lt : j < k
  depth_eq : c.depth (k + 1) = c.depth j
  between : ∀ i, j < i → i ≤ k → c.depth j < c.depth i

/-- Steps that succeed, never name the stack pointer as a destination and keep the depth of the
stack within memory. -/
structure Disciplined (n : Nat) : Prop where
  succeeds : ∀ k < n, (c.answer k).isOk
  leaves : ∀ k < n, (c.moment k).setsPointer = false
  bounded : ∀ k ≤ n, 0 ≤ c.depth k ∧ c.depth k ≤ 256

end Computer

namespace InstructionTable

variable {s : State} {i : Instruction}

def Shifts (s t : State) : Move → Prop
  | .push entry => t.memory = Function.update s.memory (s.stackPointer - 1) entry.byte ∧
      t.stackPointer = s.stackPointer - 1
  | .pop => t.memory = s.memory ∧ t.stackPointer = s.stackPointer + 1
  | .stay => t.memory = s.memory ∧ t.stackPointer = s.stackPointer

theorem State.first_ne (hi : s.instruction? = some i) (hs : s.setsPointer = false)
    (hm : i ∈ [Instruction.loadImmediate, .add, .sub, .mul, .div, .pop]) : s.first ≠ 7 := by
  intro h7
  rw [setsPointer, hi, Option.any_some, decide_eq_true hm, h7] at hs
  cases hs

theorem shifts_branch (opcode : UInt8) (taken : State → Bool) :
    Shifts s ((branch opcode taken).effect s) .stay := by
  obtain h | h := effect_branch opcode taken s
  · rw [h]
    exact ⟨rfl, rfl⟩
  · rw [h]
    exact ⟨rfl, rfl⟩

/-- A step lemma for the stack: the memory and the stack pointer change as the move says. -/
theorem shifts_effect (hi : s.instruction? = some i) (hf : (row i).fault? s = none)
    (hs : s.setsPointer = false) : Shifts s ((row i).effect s) s.move := by
  have hfirst := State.first_ne hi hs
  obtain ⟨hlt, -, -⟩ := Row.of_fault?_eq_none hf
  rw [State.move, hi]
  cases i with
  | halt | print | compare => exact ⟨rfl, rfl⟩
  | jump | jumpIfEqual | jumpIfNotEqual => exact shifts_branch _ _
  | loadImmediate | add | sub | mul | div =>
    exact ⟨rfl, s.stackPointer_setRegister (hlt rfl) (hfirst (by decide)) _⟩
  | push => exact ⟨rfl, s.stackPointer_pushed (s.register s.first)⟩
  | call => exact ⟨rfl, s.stackPointer_pushed (UInt8.ofNat (s.pc + 2))⟩
  | ret => exact ⟨rfl, s.stackPointer_popped⟩
  | pop =>
    refine ⟨rfl, (s.popped.stackPointer_setRegister (hlt rfl) (hfirst (by decide)) _).trans ?_⟩
    exact s.stackPointer_popped

theorem first_pop (s : State) :
    ((row .pop).effect s).register s.first = s.memory s.stackPointer :=
  Function.update_self (Fin.ofNat 8 s.first.toNat) _ _

theorem pc_ret (s : State) : ((row .ret).effect s).pc = (s.memory s.stackPointer).toNat :=
  rfl

theorem back_lt (hf : (row .call).fault? s = none) : s.pc + 2 < 256 := by
  obtain ⟨-, -, hr⟩ := Row.of_fault?_eq_none hf
  by_contra hn
  have hs : (row .call).refusal s = some (.outOfRangeAddress (s.pc + 2)) := if_pos (by omega)
  rw [hs] at hr
  cases hr

/-- The entries stand in memory from the stack pointer up, the last one first, and end below the
bottom of the stack. -/
structure Stands (bottom : UInt8) (s : State) (stack : List Entry) : Prop where
  pointer : s.stackPointer = bottom - UInt8.ofNat stack.length
  cells : ∀ k entry, stack[k]? = some entry →
    s.memory (s.stackPointer + UInt8.ofNat k) = entry.byte

namespace Stands

variable {t : State} {bottom : UInt8} {stack : List Entry}

theorem separate (top : UInt8) {k : Nat} (hk : k < 255) : top + UInt8.ofNat k ≠ top - 1 := by
  intro h
  have ht := congrArg UInt8.toNat h
  simp only [UInt8.toNat_add, UInt8.toNat_sub, UInt8.toNat_ofNat', UInt8.toNat_one] at ht
  omega

theorem push {entry : Entry} (h : Stands bottom s stack) (hs : Shifts s t (.push entry))
    (hl : stack.length < 256) : Stands bottom t (entry :: stack) := by
  obtain ⟨hm, hp⟩ := hs
  refine ⟨?_, fun k e hk ↦ ?_⟩
  · rw [hp, h.pointer, List.length_cons, UInt8.ofNat_add]
    grind
  · cases k with
    | zero =>
      cases hk
      have ha : t.stackPointer + UInt8.ofNat 0 = s.stackPointer - 1 := (UInt8.add_zero _).trans hp
      rw [ha, hm, Function.update_self]
    | succ k =>
      -- The entries below stay where they are, one further from the pointer. Even the last of 255
      -- is not in the cell that is written.
      have hk : stack[k]? = some e := hk
      have hlt : k < stack.length := (List.getElem?_eq_some_iff.mp hk).1
      have ha : t.stackPointer + UInt8.ofNat (k + 1) = s.stackPointer + UInt8.ofNat k := by
        rw [hp, UInt8.ofNat_add]
        grind
      rw [ha, hm, Function.update_of_ne (separate _ (by omega))]
      exact h.cells k e hk

theorem top {entry : Entry} (h : Stands bottom s (entry :: stack)) :
    s.memory s.stackPointer = entry.byte := by
  have ha : s.stackPointer + UInt8.ofNat 0 = s.stackPointer := UInt8.add_zero _
  rw [← h.cells 0 entry rfl, ha]

theorem pop {entry : Entry} (h : Stands bottom s (entry :: stack)) (hs : Shifts s t .pop) :
    Stands bottom t stack := by
  obtain ⟨hm, hp⟩ := hs
  refine ⟨?_, fun k e hk ↦ ?_⟩
  · rw [hp, h.pointer, List.length_cons, UInt8.ofNat_add]
    grind
  · have ha : t.stackPointer + UInt8.ofNat k = s.stackPointer + UInt8.ofNat (k + 1) := by
      rw [hp, UInt8.ofNat_add]
      grind
    rw [ha, hm]
    exact h.cells (k + 1) e hk

theorem stay (h : Stands bottom s stack) (hs : Shifts s t .stay) : Stands bottom t stack := by
  obtain ⟨hm, hp⟩ := hs
  refine ⟨hp.trans h.pointer, fun k entry hk ↦ ?_⟩
  rw [hm, hp]
  exact h.cells k entry hk

end Stands

end InstructionTable

namespace Computer

variable {c : Computer} {n : Nat}

theorem stack_succ (n : Nat) : c.stack (n + 1) = (c.moment n).move.apply (c.stack n) :=
  rfl

theorem depth_succ (n : Nat) : c.depth (n + 1) = c.depth n + (c.moment n).move.rise :=
  Finset.sum_range_succ _ n

theorem Disciplined.mono {m : Nat} (h : c.Disciplined n) (hm : m ≤ n) : c.Disciplined m where
  succeeds k hk := h.succeeds k (by omega)
  leaves k hk := h.leaves k (by omega)
  bounded k hk := h.bounded k (by omega)

theorem Disciplined.instruction {k : Nat} (h : c.Disciplined n) (hk : k < n) :
    ∃ i, (c.moment k).instruction? = some i ∧ (row i).fault? (c.moment k) = none ∧
      c.moment (k + 1) = (row i).effect (c.moment k) := by
  cases ha : (c.after k).step.result with
  | error fault =>
    have hs : (c.after k).step.result.isOk := h.succeeds k hk
    rw [ha] at hs
    cases hs
  | ok b =>
    obtain ⟨i, hi, -, hf, hv⟩ := view_step ha
    refine ⟨i, hi, hf, ?_⟩
    rw [moment, after_succ, hv]
    rfl

theorem Disciplined.shifts {k : Nat} (h : c.Disciplined n) (hk : k < n) :
    Shifts (c.moment k) (c.moment (k + 1)) (c.moment k).move := by
  obtain ⟨i, hi, hf, hv⟩ := h.instruction hk
  rw [hv]
  exact shifts_effect hi hf (h.leaves k hk)

theorem Disciplined.length_stack (h : c.Disciplined n) : (c.stack n).length = c.depth n := by
  induction n with
  | zero => rfl
  | succ n ih =>
    have ih := ih (h.mono n.le_succ)
    have hb := (h.bounded (n + 1) (Nat.le_refl _)).1
    rw [depth_succ] at hb ⊢
    rw [stack_succ]
    cases hm : (c.moment n).move with
    | push entry =>
      rw [Move.apply, Move.rise, List.length_cons, ← ih]
      omega
    | pop =>
      rw [hm, Move.rise] at hb
      rw [Move.apply, Move.rise, List.length_tail, ← ih]
      omega
    | stay =>
      rw [Move.apply, Move.rise, ih, Int.add_zero]

theorem Disciplined.stack_of_pop {k : Nat} (h : c.Disciplined n) (hk : k < n)
    (hm : (c.moment k).move = .pop) : ∃ entry rest, c.stack k = entry :: rest := by
  have hb := (h.bounded (k + 1) hk).1
  rw [depth_succ, hm, Move.rise] at hb
  have hl := (h.mono (Nat.le_of_lt hk)).length_stack
  cases hs : c.stack k with
  | nil =>
    rw [hs, List.length_nil] at hl
    omega
  | cons entry rest => exact ⟨entry, rest, rfl⟩

/-- The run lemma: the abstract stack stands in memory at all times. -/
theorem Disciplined.stands (h : c.Disciplined n) :
    Stands c.view.stackPointer (c.moment n) (c.stack n) := by
  induction n with
  | zero => exact ⟨(UInt8.sub_zero _).symm, fun k entry hk ↦ by cases hk⟩
  | succ n ih =>
    have ih := ih (h.mono n.le_succ)
    have hs := h.shifts n.lt_succ_self
    have hl := h.length_stack
    have hb := h.bounded (n + 1) (Nat.le_refl _)
    rw [stack_succ] at hl ⊢
    cases hm : (c.moment n).move with
    | push entry =>
      rw [hm] at hs hl
      rw [Move.apply, List.length_cons] at hl
      exact ih.push hs (by omega)
    | pop =>
      obtain ⟨entry, rest, hst⟩ := h.stack_of_pop n.lt_succ_self hm
      rw [hm] at hs
      rw [hst] at ih ⊢
      exact ih.pop hs
    | stay =>
      rw [hm] at hs
      exact ih.stay hs

theorem depth_le_peak {k : Nat} (hk : k ≤ n) : (c.depth k).toNat ≤ c.peak n :=
  Finset.le_sup (f := fun k ↦ (c.depth k).toNat) (Finset.mem_range_succ_iff.mpr hk)

theorem peak_le_succ (n : Nat) : c.peak n ≤ c.peak (n + 1) :=
  Finset.sup_mono (Finset.range_mono (n + 1).le_succ)

theorem Disciplined.memory_eq (h : c.Disciplined n) {address : UInt8}
    (ha : ∀ i, 1 ≤ i → i ≤ c.peak n → address ≠ c.view.stackPointer - UInt8.ofNat i) :
    (c.moment n).memory address = c.view.memory address := by
  induction n with
  | zero => rfl
  | succ n ih =>
    have hn := h.mono n.le_succ
    have ih := ih hn fun i h1 hi ↦ ha i h1 (hi.trans (peak_le_succ n))
    have hs := h.shifts n.lt_succ_self
    have hl := h.length_stack
    rw [stack_succ] at hl
    cases hm : (c.moment n).move with
    | push entry =>
      rw [hm] at hs hl
      rw [Move.apply, List.length_cons] at hl
      -- The cell that is written lies as deep as the stack is high after the step.
      have hp : (c.stack n).length + 1 ≤ c.peak (n + 1) := by
        have hd := c.depth_le_peak (Nat.le_refl (n + 1))
        rw [← hl] at hd
        exact hd
      have hne : address ≠ (c.moment n).stackPointer - 1 := by
        have hne := ha _ (by omega) hp
        rw [UInt8.ofNat_add] at hne
        rw [hn.stands.pointer]
        grind
      rw [hs.1, Function.update_of_ne hne, ih]
    | pop | stay =>
      rw [hm] at hs
      rw [hs.1, ih]

/-- What stands on the stack was put there by an earlier step, and ever since the stack was
higher than before that step. -/
theorem push_of_stack (c : Computer) (k : Nat) {entry : Entry} {rest : List Entry}
    (h : c.stack k = entry :: rest) :
    ∃ j < k, (c.moment j).move = .push entry ∧ c.stack j = rest ∧
      ∀ i, j < i → i ≤ k → rest.length < (c.stack i).length := by
  induction k using Nat.strong_induction_on generalizing entry rest with
  | _ k ih =>
    cases k with
    | zero => cases h
    | succ k =>
      -- The step before put the entry there, left it or took off what stood above it.
      have hlast : rest.length < (c.stack (k + 1)).length := by
        rw [h]
        exact Nat.lt_succ_self _
      have hext : ∀ {j}, (∀ i, j < i → i ≤ k → rest.length < (c.stack i).length) →
          ∀ i, j < i → i ≤ k + 1 → rest.length < (c.stack i).length := by
        intro j hb i hj hi
        obtain hi | rfl := Nat.le_succ_iff.mp hi
        · exact hb i hj hi
        · exact hlast
      rw [stack_succ] at h
      cases hm : (c.moment k).move with
      | push other =>
        rw [hm] at h
        cases h
        exact ⟨k, k.lt_succ_self, hm, rfl, hext fun i hj hi ↦ by omega⟩
      | stay =>
        rw [hm] at h
        obtain ⟨j, hj, hp, hr, hb⟩ := ih k k.lt_succ_self h
        exact ⟨j, by omega, hp, hr, hext hb⟩
      | pop =>
        rw [hm] at h
        cases hst : c.stack k with
        | nil =>
          rw [hst] at h
          cases h
        | cons above below =>
          rw [hst] at h
          cases h
          obtain ⟨m, hm, -, hr, hb⟩ := ih k k.lt_succ_self hst
          obtain ⟨j, hj, hp, hr, hbelow⟩ := ih m (by omega) hr
          refine ⟨j, by omega, hp, hr, hext fun i hj hi ↦ ?_⟩
          obtain hi | hi := Nat.lt_or_ge m i
          · have habove := hb i hi ‹_›
            rw [List.length_cons] at habove
            omega
          · exact hbelow i hj hi

theorem Matching.unique {i j k : Nat} (hi : c.Matching i k) (hj : c.Matching j k) : i = j := by
  obtain h | rfl | h := Nat.lt_trichotomy i j
  · have hb := hi.between j h (Nat.le_of_lt hj.lt)
    rw [← hi.depth_eq, hj.depth_eq] at hb
    omega
  · rfl
  · have hb := hj.between i h (Nat.le_of_lt hi.lt)
    rw [← hj.depth_eq, hi.depth_eq] at hb
    omega

theorem Disciplined.matching {k : Nat} (h : c.Disciplined n) (hk : k < n)
    (hm : (c.moment k).move = .pop) :
    ∃ j entry, c.Matching j k ∧ (c.moment j).move = .push entry ∧
      (c.moment k).memory (c.moment k).stackPointer = entry.byte := by
  obtain ⟨entry, rest, hst⟩ := h.stack_of_pop hk hm
  obtain ⟨j, hj, hp, hr, hb⟩ := c.push_of_stack k hst
  have hlength : ∀ i ≤ k, c.depth i = (c.stack i).length := fun i hi ↦
    (h.mono (by omega)).length_stack.symm
  have hstands := (h.mono (Nat.le_of_lt hk)).stands
  rw [hst] at hstands
  refine ⟨j, entry, ⟨hj, ?_, fun i hji hi ↦ ?_⟩, hp, hstands.top⟩
  · rw [depth_succ, hm, hlength k (Nat.le_refl k), hlength j (by omega), hst, hr, Move.rise,
      List.length_cons]
    omega
  · rw [hlength j (by omega), hlength i hi, hr]
    exact Int.ofNat_lt.mpr (hb i hji hi)

theorem Disciplined.effect {k : Nat} {i : Instruction} (h : c.Disciplined n) (hk : k < n)
    (hi : (c.moment k).instruction? = some i) :
    (row i).fault? (c.moment k) = none ∧ c.moment (k + 1) = (row i).effect (c.moment k) := by
  obtain ⟨other, ho, hf, hv⟩ := h.instruction hk
  cases hi.symm.trans ho
  exact ⟨hf, hv⟩

theorem Disciplined.byte_back {j : Nat} {entry : Entry} (h : c.Disciplined n) (hj : j < n)
    (hm : (c.moment j).move = .push entry) (hi : (c.moment j).instruction? = some .call) :
    entry.byte.toNat = (c.moment j).pc + 2 := by
  rw [State.move, hi] at hm
  cases hm
  exact UInt8.toNat_ofNat_of_lt' (back_lt (h.effect hj hi).1)

/-- The stack in memory is a list: it stands below the place where the stack pointer began, nothing
else is written to, and what a step takes off is what its one match has put there. A return to an
address that a call has put there goes on behind that call. -/
theorem stack_discipline (c : Computer) (n : Nat) (h : c.Disciplined n) :
    (c.stack n).length = c.depth n ∧
    (c.moment n).stackPointer = c.view.stackPointer - UInt8.ofNat (c.stack n).length ∧
    (∀ k entry, (c.stack n)[k]? = some entry →
      (c.moment n).memory ((c.moment n).stackPointer + UInt8.ofNat k) = entry.byte) ∧
    (∀ address, (∀ i, 1 ≤ i → i ≤ c.peak n → address ≠ c.view.stackPointer - UInt8.ofNat i) →
      (c.moment n).memory address = c.view.memory address) ∧
    (∀ k < n, (c.moment k).instruction? = some .pop →
      ∃ j entry, (∀ i, c.Matching i k ↔ i = j) ∧ (c.moment j).move = .push entry ∧
        (c.moment (k + 1)).register (c.moment k).first = entry.byte) ∧
    (∀ k < n, (c.moment k).instruction? = some .ret →
      ∃ j entry, (∀ i, c.Matching i k ↔ i = j) ∧ (c.moment j).move = .push entry ∧
        (c.moment (k + 1)).pc = entry.byte.toNat ∧
        ((c.moment j).instruction? = some .call →
          (c.moment (k + 1)).pc = (c.moment j).pc + 2)) := by
  have honly : ∀ {j k}, c.Matching j k → ∀ i, c.Matching i k ↔ i = j := fun hj i ↦
    ⟨fun hi ↦ hi.unique hj, fun he ↦ he ▸ hj⟩
  refine ⟨h.length_stack, h.stands.pointer, h.stands.cells, fun _ ha ↦ h.memory_eq ha,
    fun k hk hi ↦ ?_, fun k hk hi ↦ ?_⟩
  · obtain ⟨j, entry, hj, hp, ht⟩ := h.matching hk (by rw [State.move, hi])
    refine ⟨j, entry, honly hj, hp, ?_⟩
    rw [(h.effect hk hi).2, first_pop, ht]
  · obtain ⟨j, entry, hj, hp, ht⟩ := h.matching hk (by rw [State.move, hi])
    have hpc : (c.moment (k + 1)).pc = entry.byte.toNat := by
      rw [(h.effect hk hi).2, pc_ret, ht]
    exact ⟨j, entry, honly hj, hp, hpc, fun hc ↦ hpc.trans (h.byte_back (hj.lt.trans hk) hp hc)⟩

/-- About to call a routine that puts a value on the stack and takes it off again. The stack wraps
around, and the way back overwrites the call. -/
def calling : Computer :=
  { new {} (.lines "" none) ⟨.warn, #[]⟩ with
    machine :=
      { memory := (((((Memory.blank.set 0 Instruction.call.opcode).set 2
          Instruction.halt.opcode).set 3 Instruction.push.opcode).set 5
          Instruction.pop.opcode).set 6 1).set 7 Instruction.ret.opcode
        registers := ⟨(Registers.initial 1).general.set 0 3, 0⟩
        pc := 0 } }

theorem disciplined_calling : calling.Disciplined 4 where
  succeeds := by decide +kernel
  leaves := by decide +kernel
  bounded := by decide +kernel

theorem stack_discipline_calling :
    calling.Disciplined 4 ∧
    (calling.moment 4).stackPointer = 1 - UInt8.ofNat (calling.stack 4).length ∧
    (∃ j entry, (∀ i, calling.Matching i 2 ↔ i = j) ∧ (calling.moment j).move = .push entry ∧
      (calling.moment 3).register (calling.moment 2).first = entry.byte) ∧
    ∃ j entry, (∀ i, calling.Matching i 3 ↔ i = j) ∧ (calling.moment j).move = .push entry ∧
      (calling.moment 4).pc = entry.byte.toNat := by
  have hpop : (calling.moment 2).instruction? = some .pop := by decide +kernel
  have hret : (calling.moment 3).instruction? = some .ret := by decide +kernel
  obtain ⟨-, hp, -, -, hpops, hrets⟩ := stack_discipline calling 4 disciplined_calling
  obtain ⟨j, entry, hj, hm, hpc, -⟩ := hrets 3 (by decide) hret
  exact ⟨disciplined_calling, hp, hpops 2 (by decide) hpop, j, entry, hj, hm, hpc⟩

end Computer

end ByteMachine
