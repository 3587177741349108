import ByteMachine.Proofs.GuardedStep
import ByteMachine.Proofs.RoundTrip
import ByteMachine.Proofs.StepParts

namespace ByteMachine

open Text Assembly

/-- A fault that was found counting from a base, as it is seen from address 0. -/
def Fault.above (base : Nat) : Fault → Fault
  | .outOfRangeAddress address => .outOfRangeAddress (base + address)
  | .unknownOpcode opcode address => .unknownOpcode opcode (base + address)
  | fault => fault

theorem Fault.above_injective (base : Nat) : Function.Injective (above base) := by
  intro a b h
  cases a <;> cases b <;> simp_all [above]

def Slot.name : Slot → UInt8 → String
  | .register, value => "R" ++ value.toNat.repr
  | .immediate, value => value.toNat.repr

/-- How an instruction is named with its operand bytes: by the mnemonic and, behind a blank, the
bytes in decimal with commas between them and an R in front of each that stands for a register. -/
def Instruction.name (i : Instruction) (operands : List UInt8) : String :=
  match List.zipWith Slot.name i.slots operands with
  | [] => i.mnemonic
  | names => i.mnemonic ++ " " ++ ",".intercalate names

section

variable {address : Nat} {slots : List Slot} {values : List UInt8}

theorem Instruction.operandTexts_of_lt (h : values.length < slots.length) :
    operandTexts address slots values = .error (.outOfRangeAddress (address + values.length)) := by
  induction slots generalizing address values with
  | nil => cases h
  | cons slot slots ih =>
    cases values with
    | nil => rfl
    | cons value values =>
      rw [operandTexts, ih (Nat.lt_of_succ_lt_succ h), List.length_cons, Nat.add_right_comm]
      rfl

theorem disassemble_of_none {opcode : UInt8} {rest : List UInt8}
    (h : Instruction.ofOpcode? opcode = none) :
    disassemble (opcode :: rest) = .error (.unknownOpcode opcode 0) := by
  rw [disassemble, h]

theorem disassemble_of_lt {i : Instruction} {rest : List UInt8}
    (h : rest.length < i.slots.length) :
    disassemble (i.opcode :: rest) = .error (.outOfRangeAddress (1 + rest.length)) := by
  rw [disassemble, Instruction.ofOpcode?_opcode]
  dsimp only
  rw [Instruction.operandTexts_of_lt h]
  rfl

end

section

variable {e other : Encoding}

theorem Slot.text_injective (slot : Slot) : Function.Injective slot.text := by
  have hdecimal : ∀ {a b : UInt8}, Numeral.decimal a.toNat = Numeral.decimal b.toNat → a = b := by
    intro a b h
    have hread (c : UInt8) : Numeral.read 10 255 (Numeral.decimal c.toNat) = .ok c.toNat :=
      Numeral.read_of_denotes (by omega) (Numeral.denotes_write (by omega) 1 c.toNat)
        (Nat.le_of_lt_succ c.toNat_lt)
    have hb := hread b
    rw [← h, hread a] at hb
    exact UInt8.toNat_inj.mp (Except.ok.inj hb)
  intro a b h
  cases slot with
  | register => exact hdecimal (List.cons.inj h).2
  | immediate => exact hdecimal h

theorem eq_of_zipWith_text {slots : List Slot} {as bs : List UInt8} (ha : as.length = slots.length)
    (hb : bs.length = slots.length)
    (h : List.zipWith Slot.text slots as = List.zipWith Slot.text slots bs) : as = bs := by
  induction slots generalizing as bs with
  | nil => rw [List.length_eq_zero_iff.mp ha, List.length_eq_zero_iff.mp hb]
  | cons slot slots ih =>
    cases as with
    | nil => cases ha
    | cons a as =>
      cases bs with
      | nil => cases hb
      | cons b bs =>
        obtain ⟨hfirst, hrest⟩ := List.cons.inj h
        rw [slot.text_injective hfirst, ih (Nat.succ.inj ha) (Nat.succ.inj hb) hrest]

/-- A text names one instruction with its operands and no other. -/
theorem Encoding.text_injective (h : e.text = other.text) : e = other := by
  have hread := e.read_text 0
  rw [h, other.read_text 0] at hread
  obtain ⟨-, hi, ho⟩ := Statement.mk.inj (Except.ok.inj hread)
  obtain ⟨i, as, ha⟩ := e
  obtain ⟨j, bs, hb⟩ := other
  obtain rfl : j = i := Directive.instruction.inj hi
  obtain rfl : bs = as :=
    eq_of_zipWith_text (hb.trans j.length_slots.symm) (ha.trans j.length_slots.symm) ho
  rfl

end

theorem Slot.toList_name (slot : Slot) (value : UInt8) :
    (slot.name value).toList = slot.text value := by
  have hdecimal : value.toNat.repr.toList = Numeral.decimal value.toNat := by
    have hpos : 1 ≤ (Nat.toDigits 10 value.toNat).length :=
      List.length_pos_iff.mpr Nat.toDigits_ne_nil
    rw [Nat.repr, String.toList_ofList, Numeral.decimal, Numeral.write, List.leftpad,
      Nat.sub_eq_zero_of_le hpos]
    rfl
  cases slot with
  | register => rw [name, String.toList_append, hdecimal]; rfl
  | immediate => exact hdecimal

theorem Encoding.toList_name (e : Encoding) :
    (e.instruction.name e.operands).toList = e.text := by
  have hnames : (List.zipWith Slot.name e.instruction.slots e.operands).map String.toList =
      e.operandTexts := by
    rw [List.map_zipWith]
    simp only [Slot.toList_name]
    rfl
  rw [text, ← hnames, Instruction.name]
  cases List.zipWith Slot.name e.instruction.slots e.operands with
  | nil => rfl
  | cons name names =>
    dsimp only
    rw [String.toList_append, String.toList_append, String.toList_intercalate, List.append_assoc]
    rfl

theorem Encoding.ofList_text (e : Encoding) :
    String.ofList e.text = e.instruction.name e.operands := by
  rw [← e.toList_name, String.ofList_toList]

theorem Instruction.eq_of_name_eq {i j : Instruction} {as bs : List UInt8}
    (ha : as.length = i.slots.length) (hb : bs.length = j.slots.length)
    (h : i.name as = j.name bs) : i = j ∧ as = bs := by
  have he : (⟨i, as, ha.trans i.length_slots⟩ : Encoding) = ⟨j, bs, hb.trans j.length_slots⟩ := by
    apply Encoding.text_injective
    rw [← Encoding.toList_name, ← Encoding.toList_name, h]
  obtain ⟨hi, ho⟩ := Encoding.mk.inj he
  exact ⟨hi, ho⟩

theorem Instruction.name_ne_empty (i : Instruction) (operands : List UInt8) :
    i.name operands ≠ "" := by
  have hmnemonic : i.mnemonic ≠ "" := by cases i <;> decide
  intro h
  rw [name] at h
  cases hn : List.zipWith Slot.name i.slots operands with
  | nil =>
    rw [hn] at h
    exact hmnemonic h
  | cons name names =>
    rw [hn] at h
    simp at h

namespace Machine

variable {m : Machine} {i : Instruction} {f : Fetched}

theorem drop_cells (m : Machine) {address : Nat} (h : address < 256) :
    m.memory.cells.toList.drop address =
      m.cell address :: m.memory.cells.toList.drop (address + 1) := by
  have hcell : m.memory.cells[address] = m.cell address :=
    Except.ok.inj ((dif_pos h).symm.trans (m.read_of_lt h))
  have hlt : address < m.memory.cells.toList.length := by rwa [Vector.length_toList]
  rw [List.drop_eq_getElem_cons hlt, Vector.getElem_toList, hcell]

theorem drop_cells_eq_append (m : Machine) {n address : Nat} (h : address + n ≤ 256) :
    m.memory.cells.toList.drop address =
      (List.range n).map (fun k ↦ m.cell (address + k)) ++
        m.memory.cells.toList.drop (address + n) := by
  induction n with
  | zero => rfl
  | succ n ih =>
    rw [ih (by omega), m.drop_cells (show address + n < 256 by omega), List.range_succ,
      List.map_append, List.append_assoc]
    rfl

def encoding (m : Machine) (i : Instruction) : Encoding where
  instruction := i
  operands := (m.fetched i).operands
  length_eq := by simp [fetched, i.length_slots]

theorem disassemble_of_fetch (h : m.fetch = .ok (i, f)) :
    disassemble (m.memory.cells.toList.drop m.pc) = .ok (i.name f.operands) := by
  obtain ⟨hn, ho, rfl⟩ := fetch_eq_ok_iff.mp h
  have hname : String.ofList (m.encoding i).text = i.name (m.fetched i).operands :=
    (m.encoding i).ofList_text
  rw [m.drop_cells (by omega), m.drop_cells_eq_append hn, ho, ← hname, ← disassemble_append]
  rfl

theorem message_of_fetch (h : m.fetch = .ok (i, f)) :
    (Event.executing m).message = m.traceLine ++ " " ++ i.name f.operands := by
  have hmessage : (Event.executing m).message = m.traceLine ++ " " ++
      (disassemble (m.memory.cells.toList.drop m.pc)).toOption.getD "" := rfl
  have hname : (disassemble (m.memory.cells.toList.drop m.pc)).toOption.getD "" =
      i.name f.operands := by
    rw [disassemble_of_fetch h]
    rfl
  rw [hmessage, hname]

theorem disassemble_of_fetch_error {fault : Fault} (h : m.fetch = .error fault) (hpc : m.pc ≤ 256) :
    ∃ other, disassemble (m.memory.cells.toList.drop m.pc) = .error other ∧
      fault = other.above m.pc := by
  rw [fetch_eq] at h
  by_cases hlt : m.pc < 256
  · rw [if_pos hlt] at h
    rw [m.drop_cells hlt]
    cases hi : Instruction.ofOpcode? (m.cell m.pc) with
    | none =>
      rw [hi] at h
      cases h
      exact ⟨_, disassemble_of_none hi, rfl⟩
    | some i =>
      rw [hi] at h
      dsimp only at h
      split at h
      · cases h
      · next hn =>
        cases h
        have hlength : (m.memory.cells.toList.drop (m.pc + 1)).length = 255 - m.pc := by
          rw [List.length_drop, Vector.length_toList]
          omega
        rw [← Instruction.opcode_eq_of_ofOpcode? hi]
        refine ⟨_, disassemble_of_lt (by omega), ?_⟩
        rw [hlength]
        exact congrArg Fault.outOfRangeAddress (by omega)
  · obtain rfl : fault = .outOfRangeAddress m.pc := by
      rw [if_neg hlt] at h
      exact (Except.error.inj h).symm
    rw [List.drop_of_length_le (by rw [Vector.length_toList]; omega)]
    exact ⟨_, rfl, rfl⟩

end Machine

/-- The machine and the disassembler decode alike. Where one of them takes an instruction so does
the other, and its text is the name of the instruction with the operand bytes that were fetched, and
of no other. Where one fails so does the other, for the same reason, and the addresses differ by the
program counter alone. So a step that is told of is told with the name of its instruction. -/
theorem fetch_agrees_with_disassemble (m : Machine) (h : m.pc ≤ 256) :
    ∃ code, m.slice? m.pc = some code ∧
      ((∃ x, m.fetch = .ok x) ↔ ∃ text, disassemble code = .ok text) ∧
      (∀ i f, m.fetch = .ok (i, f) →
        Instruction.ofOpcode? f.opcode = some i ∧ f.operands.length = i.slots.length ∧
        disassemble code = .ok (i.name f.operands) ∧
        ∀ j operands, operands.length = j.slots.length → j.name operands = i.name f.operands →
          j = i ∧ operands = f.operands) ∧
      (∀ fault, m.fetch = .error fault →
        ∃ other, disassemble code = .error other ∧ fault = other.above m.pc) ∧
      ∀ c : Computer, c.machine = m →
        (∃ fault, m.fetch = .error fault) ∧ c.step.computer.log = c.log ∨
        ∃ text, disassemble code = .ok text ∧ text ≠ "" ∧
          (Event.executing m).message = m.traceLine ++ " " ++ text ∧
          c.step.computer.log = c.log.record (.executing m) := by
  refine ⟨_, if_pos h, ⟨?_, ?_⟩, ?_, fun fault hf ↦ m.disassemble_of_fetch_error hf h, ?_⟩
  · rintro ⟨⟨i, f⟩, hf⟩
    exact ⟨_, Machine.disassemble_of_fetch hf⟩
  · rintro ⟨text, ht⟩
    cases hf : m.fetch with
    | ok x => exact ⟨x, rfl⟩
    | error fault =>
      obtain ⟨other, ho, -⟩ := Machine.disassemble_of_fetch_error hf h
      cases ht.symm.trans ho
  · intro i f hf
    obtain ⟨-, -, rfl⟩ := Machine.fetch_eq_ok_iff.mp hf
    have hl : (m.fetched i).operands.length = i.slots.length := by simp [Machine.fetched]
    exact ⟨i.ofOpcode?_opcode, hl, Machine.disassemble_of_fetch hf,
      fun j operands hj hn ↦ Instruction.eq_of_name_eq hj hl hn⟩
  · rintro c rfl
    rw [c.log_step]
    cases hf : c.machine.fetch with
    | error fault => exact .inl ⟨⟨fault, rfl⟩, rfl⟩
    | ok x =>
      obtain ⟨i, f⟩ := x
      exact .inr ⟨_, Machine.disassemble_of_fetch hf, i.name_ne_empty f.operands,
        Machine.message_of_fetch hf, if_pos rfl⟩

def Machine.atEnd (pc : Nat) : Machine :=
  { Machine.initial 0 with
    memory := (Memory.blank.set 253 0x82).set 255 0x82
    pc := pc }

theorem fetch_agrees_at_end :
    (Machine.atEnd 253).pc ≤ 256 ∧ (Machine.atEnd 255).pc ≤ 256 ∧
      (∃ code, (Machine.atEnd 253).slice? 253 = some code ∧
        disassemble code = .ok "LDI R0,130") ∧
      ∃ code, (Machine.atEnd 255).slice? 255 = some code ∧
        disassemble code = .error (.outOfRangeAddress 1) := by
  have hok : (Machine.atEnd 253).fetch = .ok (.loadImmediate, ⟨253, 0x82, [0, 0x82]⟩) := by
    decide +kernel
  have herror : (Machine.atEnd 255).fetch = .error (.outOfRangeAddress 256) := by decide +kernel
  refine ⟨by decide, by decide, ?_, ?_⟩
  · obtain ⟨code, hs, -, hname, -⟩ := fetch_agrees_with_disassemble (Machine.atEnd 253) (by decide)
    obtain ⟨-, -, hd, -⟩ := hname _ _ hok
    exact ⟨code, hs, hd.trans (congrArg Except.ok (by decide))⟩
  · obtain ⟨code, hs, -, -, hfault, -⟩ :=
      fetch_agrees_with_disassemble (Machine.atEnd 255) (by decide)
    obtain ⟨other, ho, hshift⟩ := hfault _ herror
    have he : (Fault.outOfRangeAddress 1).above 255 = other.above 255 := hshift
    exact ⟨code, hs, ho.trans (congrArg Except.error (Fault.above_injective 255 he).symm)⟩

end ByteMachine
