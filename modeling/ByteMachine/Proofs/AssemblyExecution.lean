import ByteMachine.Proofs.AssemblyPasses
import ByteMachine.Proofs.Safety

namespace ByteMachine

open InstructionTable

def Instruction.jumps (flags : UInt8) : Instruction → Bool
  | call | ret | jump => true
  | jumpIfEqual => flags = Flags.equal
  | jumpIfNotEqual => flags ≠ Flags.equal
  | _ => false

theorem InstructionTable.effect_branch_of_not {opcode : UInt8} {taken : State → Bool} {s : State}
    (h : taken s = false) : (branch opcode taken).effect s = s.advance 2 := by
  simp [branch, h]

theorem InstructionTable.pc_effect_of_not_jumps {s : State} {i : Instruction}
    (hr : ((row i).effect s).running = true) (hj : i.jumps s.flags = false) :
    ((row i).effect s).pc = s.pc + 1 + i.slots.length := by
  cases i with
  | halt => cases hr
  | call | ret | jump => cases hj
  | jumpIfEqual | jumpIfNotEqual => exact congrArg State.pc (effect_branch_of_not hj)
  | _ => rfl

namespace Machine

variable {m : Machine} {address : Nat} {bytes values : List UInt8} {i : Instruction}

def Holds (m : Machine) (address : Nat) (bytes : List UInt8) : Prop :=
  ∀ j byte, bytes[j]? = some byte → m.memory.read (address + j) = .ok byte

theorem Holds.congr {n : Machine} (h : m.Holds address bytes) (hm : n.memory = m.memory) :
    n.Holds address bytes := by
  rwa [Holds, hm]

theorem Holds.left {more : List UInt8} (h : m.Holds address (bytes ++ more)) :
    m.Holds address bytes := by
  intro j byte hj
  obtain ⟨hlt, -⟩ := List.getElem?_eq_some_iff.mp hj
  exact h j byte ((List.getElem?_append_left hlt).trans hj)

theorem Holds.right {before : List UInt8} (h : m.Holds address (before ++ bytes)) :
    m.Holds (address + before.length) bytes := by
  intro j byte hj
  have hb : (before ++ bytes)[before.length + j]? = some byte := by
    rwa [List.getElem?_append_right (Nat.le_add_right _ _), Nat.add_sub_cancel_left]
  have hr := h _ byte hb
  rwa [← Nat.add_assoc] at hr

/-- An instruction with its operand bytes is in memory where the program counter points, and the
registers that it names exist. -/
structure Stands (m : Machine) (i : Instruction) (values : List UInt8) : Prop where
  length_eq : values.length = i.slots.length
  holds : m.Holds m.pc (i.opcode :: values)
  register : ∀ (j : Nat) (value : UInt8), i.slots[j]? = some .register →
    values[j]? = some value → value.toNat < 8

namespace Stands

theorem operand (h : m.Stands i values) {j : Nat} {value : UInt8} (hj : values[j]? = some value) :
    m.pc + 1 + j < 256 ∧ m.cell (m.pc + 1 + j) = value := by
  have hr := h.holds (j + 1) value hj
  rw [Nat.add_comm j, ← Nat.add_assoc] at hr
  exact cell_of_read hr

theorem opcode (h : m.Stands i values) : m.pc < 256 ∧ m.cell m.pc = i.opcode :=
  cell_of_read (h.holds 0 i.opcode rfl)

theorem fetch_eq (h : m.Stands i values) : m.fetch = .ok (i, ⟨m.pc, i.opcode, values⟩) := by
  have hn : m.pc + 1 + i.slots.length ≤ 256 := by
    rw [← h.length_eq]
    cases hv : values.length with
    | zero => exact h.opcode.1
    | succ n =>
      have hlast : n < values.length := by omega
      exact (h.operand (List.getElem?_eq_getElem hlast)).1
  have hv : values = (List.range i.slots.length).map fun k ↦ m.cell (m.pc + 1 + k) := by
    apply List.ext_getElem
    · simp [h.length_eq]
    · intro k hk _
      simp [(h.operand (List.getElem?_eq_getElem hk)).2]
  refine fetch_eq_ok_iff.mpr ⟨hn, h.opcode.2, ?_⟩
  rw [fetched, ← hv]

end Stands

end Machine

namespace Computer

variable {c : Computer} {i : Instruction} {values : List UInt8}

/-- Carries out an instruction with some operand bytes, wherever they come from. -/
def execute (c : Computer) (i : Instruction) (values : List UInt8) : Outcome Bool :=
  let f : Fetched := ⟨c.machine.pc, i.opcode, values⟩
  match (c.tell (.executing c.machine)).perform i.action f with
  | ⟨.error fault, c⟩ => ⟨.error fault, c⟩
  | ⟨.ok flow, c⟩ =>
    let c := (c.count f.opcode).follow f flow
    ⟨.ok (c.status = .running), c⟩

theorem step_of_stands (h : c.machine.Stands i values) : c.step = c.execute i values := by
  rw [step, h.fetch_eq]
  rfl

/-- A step goes by the row of an instruction in the table, which finds these bytes as its
operands. -/
structure GoesBy (c : Computer) (i : Instruction) (values : List UInt8) : Prop where
  first : ∀ value ∈ values[0]?, c.view.first = value
  second : ∀ value ∈ values[1]?, c.view.second = value
  result : c.step.result =
    ((row i).verdict (fun value ↦ (c.output.print value).isOk) c.view).result
  view : c.step.computer.view =
    ((row i).verdict (fun value ↦ (c.output.print value).isOk) c.view).state
  output : c.step.computer.output =
    c.output.offer ((row i).verdict (fun value ↦ (c.output.print value).isOk) c.view).printed

theorem goesBy_of_stands (h : c.machine.Stands i values) : c.GoesBy i values := by
  obtain ⟨hresult, hview, houtput⟩ := verdict_of_fetch h.fetch_eq
  refine ⟨?_, ?_, hresult, hview, houtput⟩
  · intro value hv
    exact (h.operand hv).2
  · intro value hv
    exact (h.operand hv).2

theorem fault_of_stands (h : c.machine.Stands i values) {fault : Fault}
    (hf : c.step.result = .error fault) :
    i = .div ∧ fault = .divisionByZero ∨ i = .print ∧ fault = .output ∨
      i = .call ∧ c.machine.pc = 254 ∧ fault = .outOfRangeAddress 256 := by
  obtain hn | ⟨j, hj, hn, hf⟩ := view_step_error hf
  · rw [h.fetch_eq] at hn
    cases hn
  · cases (c.ofOpcode?_code h.opcode.2).symm.trans hj
    obtain hf | ⟨rfl, rfl⟩ := hf
    · obtain ⟨k, hk, h8, -⟩ | hr := Row.fault?_cases hf
      -- The registers that the instruction names exist.
      · rw [operands_row] at hk
        obtain ⟨hlt, -⟩ := List.getElem?_eq_some_iff.mp hk
        rw [← h.length_eq] at hlt
        have hv := List.getElem?_eq_getElem hlt
        have hcode : c.view.code (c.view.pc + 1 + k) = values[k] := (h.operand hv).2
        rw [hcode] at h8
        exact absurd (h.register k _ hk hv) (Nat.not_lt.mpr h8)
      · obtain ⟨rfl, rfl⟩ | ⟨rfl, hpc, rfl⟩ := describes_refusal hn hr
        · exact .inl ⟨rfl, rfl⟩
        · exact .inr (.inr ⟨rfl, hpc, rfl⟩)
    · exact .inr (.inl ⟨rfl, rfl⟩)

theorem fault?_of_stands (h : c.machine.Stands i values) :
    (row i).fault? c.view = (row i).refusal c.view := by
  have hlt (k : Nat) (hk : i.slots[k]? = some .register) :
      (c.machine.cell (c.machine.pc + 1 + k)).toNat < 8 := by
    obtain ⟨hi, -⟩ := List.getElem?_eq_some_iff.mp hk
    rw [← h.length_eq] at hi
    have hv := List.getElem?_eq_getElem hi
    rw [(h.operand hv).2]
    exact h.register k _ hk hv
  rw [Row.fault?, operands_row, if_neg fun hr ↦ Nat.not_lt.mpr hr.2 (hlt 0 hr.1),
    if_neg fun hr ↦ Nat.not_lt.mpr hr.2 (hlt 1 hr.1)]

theorem pc_of_fetch {f : Fetched} (hf : c.machine.fetch = .ok (i, f))
    (hr : c.step.result = .ok true) (hj : i.jumps c.machine.registers.flags = false) :
    c.step.computer.machine.pc = c.machine.pc + 1 + i.slots.length := by
  obtain ⟨j, hi, -, -, hv⟩ := view_step hr
  cases (c.ofOpcode?_code (Machine.fetch_eq_ok_iff.mp hf).2.1).symm.trans hi
  have hrun : ((row i).effect c.view).running = true := by
    rw [← hv]
    exact decide_eq_true ((status_of_step hr).mpr rfl)
  have hpc : c.step.computer.machine.pc = ((row i).effect c.view).pc := congrArg State.pc hv
  exact hpc.trans (pc_effect_of_not_jumps hrun hj)

theorem load_holds (c : Computer) {code : List UInt8} (h : code.length ≤ 256) :
    ∃ d, c.load code = .ok d ∧ d.machine.Holds 0 code := by
  refine ⟨_, by rw [load, Memory.load, if_pos h]; rfl, ?_⟩
  intro j byte hj
  obtain ⟨hlt, rfl⟩ := List.getElem?_eq_some_iff.mp hj
  rw [Nat.zero_add, Memory.read, dif_pos (by omega)]
  simp [hlt, withMemory, tell]

end Computer

namespace Assembly

theorem registerIndex?_lt {text : List Char} {index : UInt8} (h : registerIndex? text = some index) :
    index.toNat < 8 := by
  have hread : ∀ {digits}, (Text.Numeral.read 10 7 digits).toOption.map UInt8.ofNat = some index →
      index.toNat < 8 := by
    intro digits h
    cases hn : Text.Numeral.read 10 7 digits with
    | error refusal =>
      rw [hn] at h
      cases h
    | ok n =>
      rw [hn] at h
      cases h
      have hle : n ≤ 7 := Text.Numeral.read_le hn
      rw [UInt8.toNat_ofNat']
      omega
  unfold registerIndex? at h
  split at h
  · exact hread h
  · exact hread h
  · cases h

theorem resolve_register_lt {labels : Labels} {line : Nat} {text : List Char} {value : UInt8}
    (h : resolve labels line .register text = .ok value) : value.toNat < 8 := by
  rw [resolve] at h
  cases hi : registerIndex? text with
  | none =>
    rw [hi] at h
    cases h
  | some index =>
    rw [hi] at h
    cases h
    exact registerIndex?_lt hi

/-- What is emitted for an instruction behind its opcode: slot by slot, the values of the operands.
-/
structure Emits (labels : Labels) (s : Statement) (i : Instruction) (values : List UInt8) :
    Prop where
  arity : s.operands.length = i.slots.length
  resolves : List.Forall₂ (fun x value ↦ resolve labels s.line x.1 x.2 = .ok value)
    (i.slots.zip s.operands) values

section

variable {s : Statement} {i : Instruction} {labels : Labels} {values : List UInt8}

theorem Emits.length_eq (h : Emits labels s i values) : values.length = i.slots.length := by
  rw [← h.resolves.length_eq, List.length_zip, h.arity, Nat.min_self]

theorem Emits.register (h : Emits labels s i values) (j : Nat) (value : UInt8)
    (hs : i.slots[j]? = some .register) (hv : values[j]? = some value) : value.toNat < 8 := by
  obtain ⟨hlt, -⟩ := List.getElem?_eq_some_iff.mp hs
  rw [← h.arity] at hlt
  have hz : (i.slots.zip s.operands)[j]? = some (.register, s.operands[j]) :=
    List.getElem?_zip_eq_some.mpr ⟨hs, List.getElem?_eq_getElem hlt⟩
  obtain ⟨other, ho, hr⟩ := getElem?_of_forall₂ h.resolves hz
  cases hv.symm.trans ho
  exact resolve_register_lt hr

theorem Passes.emits {source : List Char} {items : List Item} {layout : Layout}
    {encodings : List (List UInt8)} {k : Nat} (h : Passes source items layout encodings)
    (hk : (statements items)[k]? = some s) (hi : s.directive = .instruction i) :
    ∃ values, encodings[k]? = some (i.opcode :: values) ∧ Emits layout.labels s i values := by
  obtain ⟨x, -, hread⟩ := read_of_mem_statements h.reads s (List.mem_of_getElem? hk)
  obtain ⟨bytes, hb, he⟩ := getElem?_of_forall₂ h.encodes hk
  obtain ⟨values, hv, rfl⟩ := Statement.encode_eq_ok_iff.mp he
  have hl := Statement.length_slots_of_read hread
  rw [hi] at hl hb hv
  exact ⟨values, hb, hl.symm, hv⟩

end

/-- Assembler and machine agree on where instructions begin and what their operands are. Assembled
code can be loaded, and wherever the bytes of an instruction of the source are still in their place,
a step from there carries out that instruction with the values of its operands, as its row in the
table says. It fails only by dividing by zero, by printing or by a call from address 254, and unless
it halts or jumps it ends where the next statement begins, or the code ends. -/
theorem step_of_assembled {source : List Char} {code : List UInt8} (h : assemble source = .ok code) :
    ∃ items layout encodings, Passes source items layout encodings ∧ code = encodings.flatten ∧
      (∀ c : Computer, ∃ d, c.load code = .ok d ∧ ∀ k bytes, encodings[k]? = some bytes →
        d.machine.Holds (start encodings k) bytes) ∧
      (∀ k, (statements items).length ≤ k → start encodings k = code.length) ∧
      ∀ k s i, (statements items)[k]? = some s → s.directive = .instruction i →
        ∃ values, encodings[k]? = some (i.opcode :: values) ∧
          s.operands.length = i.slots.length ∧
          List.Forall₂ (fun x value ↦ resolve layout.labels s.line x.1 x.2 = .ok value)
            (i.slots.zip s.operands) values ∧
          ∀ c : Computer, c.machine.pc = start encodings k →
            c.machine.Holds (start encodings k) (i.opcode :: values) →
            c.step = c.execute i values ∧ c.GoesBy i values ∧
            (∀ fault, c.step.result = .error fault →
              i = .div ∧ fault = .divisionByZero ∨ i = .print ∧ fault = .output ∨
                i = .call ∧ c.machine.pc = 254 ∧ fault = .outOfRangeAddress 256) ∧
            (c.step.result = .ok true → i.jumps c.machine.registers.flags = false →
              c.step.computer.machine.pc = start encodings (k + 1)) := by
  obtain ⟨items, layout, encodings, hp, rfl, hle⟩ := Passes.of_assemble h
  refine ⟨items, layout, encodings, hp, rfl, fun c ↦ ?_, fun k hk ↦ ?_, fun k s i hk hi ↦ ?_⟩
  · obtain ⟨d, hd, hholds⟩ := c.load_holds hle
    refine ⟨d, hd, fun k bytes hk j byte hj ↦ ?_⟩
    obtain ⟨hlt, -⟩ := List.getElem?_eq_some_iff.mp hj
    have hr := hholds _ byte ((getElem?_start hk hlt).trans hj)
    rwa [Nat.zero_add] at hr
  · exact start_of_le (hp.encodes.length_eq ▸ hk)
  · obtain ⟨values, he, hemits⟩ := hp.emits hk hi
    refine ⟨values, he, hemits.arity, hemits.resolves, fun c hpc hholds ↦ ?_⟩
    have hs : c.machine.Stands i values :=
      ⟨hemits.length_eq, hpc ▸ hholds, hemits.register⟩
    refine ⟨Computer.step_of_stands hs, Computer.goesBy_of_stands hs,
      fun fault ↦ Computer.fault_of_stands hs, fun hr hj ↦ ?_⟩
    rw [Computer.pc_of_fetch hs.fetch_eq hr hj, start_succ he, hpc, List.length_cons,
      hemits.length_eq]
    omega

theorem step_of_assembled_referring :
    ∃ d, (Computer.new {} (.lines "" none) ⟨.warn, #[]⟩).load [0x82, 0, 6, 0, 6, 7] = .ok d ∧
      d.step = d.execute .loadImmediate [0, 6] ∧ d.step.result = .ok true ∧
      d.step.computer.view = (d.view.setRegister 0 6).advance 3 ∧
      d.step.computer.view.registers 0 = 6 ∧ d.step.computer.machine.pc = 3 := by
  have hcode : assemble referring = .ok [0x82, 0, 6, 0, 6, 7] := by decide
  obtain ⟨items, layout, encodings, hp, -, hload, -, hstep⟩ := step_of_assembled hcode
  have hlayout : Layout.ofSource referring =
      .ok ⟨#[⟨1, .instruction .loadImmediate, [['R', '0'], ['e']]⟩,
        ⟨2, .data, [['b'], ['e'], ['7']]⟩], [(['e'], 6), (['b'], 0)], 6⟩ := rfl
  cases hlayout.symm.trans hp.layout_eq
  have hk : (statements items)[0]? = some ⟨1, .instruction .loadImmediate, [['R', '0'], ['e']]⟩ :=
    congrArg (·[0]?) hp.statements_eq.symm
  obtain ⟨values, he, -, hv, hstep⟩ := hstep 0 _ .loadImmediate hk rfl
  obtain rfl : values = [0, 6] := by
    obtain ⟨⟩ | ⟨h0, ⟨⟩ | ⟨h1, ⟨⟩⟩⟩ := hv
    cases h0
    cases h1
    rfl
  obtain ⟨d, hd, hholds⟩ := hload (Computer.new {} (.lines "" none) ⟨.warn, #[]⟩)
  obtain ⟨hpc, -⟩ := Computer.machine_load hd
  obtain ⟨hexecute, hgoes, -, hnext⟩ := hstep d hpc (hholds 0 _ he)
  have hfirst : d.view.first = 0 := hgoes.first 0 rfl
  have hsecond : d.view.second = 6 := hgoes.second 6 rfl
  have hverdict : (row .loadImmediate).verdict (fun value ↦ (d.output.print value).isOk) d.view =
      ⟨.ok true, (d.view.setRegister 0 6).advance 3, none⟩ := by
    have hfault : (row .loadImmediate).fault? d.view = none := by
      rw [Row.fault?, hfirst, hsecond, if_neg (by decide), if_neg (by decide)]
      rfl
    have hprinted : (row .loadImmediate).printed d.view = none := rfl
    rw [Row.verdict_of_accepted hfault (by simp [hprinted]), hprinted, ← hfirst, ← hsecond]
    rfl
  have hok : d.step.result = .ok true := hgoes.result.trans (congrArg Verdict.result hverdict)
  have hview : d.step.computer.view = (d.view.setRegister 0 6).advance 3 :=
    hgoes.view.trans (congrArg Verdict.state hverdict)
  exact ⟨d, hd, hexecute, hok, hview, congrArg (State.registers · 0) hview,
    (hnext hok rfl).trans (start_succ he)⟩

end Assembly

end ByteMachine
