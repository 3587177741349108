import ByteMachine.Proofs.AssemblyExecution
import ByteMachine.Proofs.Observers

namespace ByteMachine.StraightLine

open InstructionTable

inductive Command
  | load (register : Fin 8) (value : UInt8)
  | arithmetic (op : Arithmetic) (first second : Fin 8)
  | print (register : Fin 8)
  deriving DecidableEq

namespace Command

def instruction : Command → Instruction
  | load _ _ => .loadImmediate
  | arithmetic .add _ _ => .add
  | arithmetic .sub _ _ => .sub
  | arithmetic .mul _ _ => .mul
  | arithmetic .div _ _ => .div
  | arithmetic .compare _ _ => .compare
  | print _ => .print

def operands : Command → List UInt8
  | load r value => [.ofNat r, value]
  | arithmetic _ a b => [.ofNat a, .ofNat b]
  | print r => [.ofNat r]

def bytes (x : Command) : List UInt8 :=
  x.instruction.opcode :: x.operands

end Command

def code (p : List Command) : List UInt8 :=
  p.flatMap Command.bytes

def program (p : List Command) : List UInt8 :=
  code p ++ [Instruction.halt.opcode]

structure Snapshot where
  registers : Fin 8 → UInt8
  flags : UInt8
  printed : List UInt8

namespace Snapshot

def fresh (stackTop : UInt8) : Snapshot :=
  ⟨fun r ↦ if r.val = 7 then stackTop else 0, 0, []⟩

def put (s : Snapshot) (r : Fin 8) (n : Nat) : Snapshot :=
  { s with registers := Function.update s.registers r (UInt8.ofNat n) }

def after (s : Snapshot) : Command → Snapshot
  | .load r value => s.put r value.toNat
  | .print r => { s with printed := s.printed ++ [s.registers r] }
  | .arithmetic op a b =>
    let x := (s.registers a).toNat
    let y := (s.registers b).toNat
    match op with
    | .add => s.put a (x + y)
    | .sub => s.put a (256 + x - y)
    | .mul => s.put a (x * y)
    | .div => s.put a (x / y)
    | .compare => { s with flags := if x = y then 1 else if x < y then 2 else 3 }

def Refuses (s : Snapshot) (x : Command) : Prop :=
  ∃ a b, x = .arithmetic .div a b ∧ s.registers b = 0

end Snapshot

def fold (stackTop : UInt8) (p : List Command) : Snapshot :=
  p.foldl Snapshot.after (.fresh stackTop)

/-- The command at place `k` divides by a register in which the commands before it have left zero.
-/
def FailsAt (stackTop : UInt8) (p : List Command) (k : Nat) : Prop :=
  ∃ x, p[k]? = some x ∧ (fold stackTop (p.take k)).Refuses x

/-- What a snapshot tells is what a machine and an output show, the program counter apart. -/
structure Shows (output : Output) (memory : Memory) (s : Snapshot) (pc : Nat) (c : Computer) :
    Prop where
  registers : c.view.registers = s.registers
  flags : c.view.flags = s.flags
  printed : output.Receives s.printed c.output
  pc : c.machine.pc = pc
  memory : c.machine.memory = memory

section

variable {s : Snapshot} {v : State} {x : Command}

theorem toNat_ofNat_lt (r : Fin 8) : (UInt8.ofNat r).toNat < 8 := by
  have h := r.isLt
  rw [UInt8.toNat_ofNat', Nat.mod_eq_of_lt (by omega)]
  exact h

theorem fin_ofNat_ofNat (r : Fin 8) : Fin.ofNat 8 (UInt8.ofNat r).toNat = r := by
  have h := r.isLt
  refine Fin.ext ?_
  rw [Fin.val_ofNat, Nat.mod_eq_of_lt (toNat_ofNat_lt r), UInt8.toNat_ofNat',
    Nat.mod_eq_of_lt (by omega)]

theorem length_operands (x : Command) : x.operands.length = x.instruction.slots.length := by
  rcases x with _ | ⟨op, _, _⟩ | _
  · rfl
  · cases op <;> rfl
  · rfl

theorem operands_lt {k : Nat} {value : UInt8} (hs : x.instruction.slots[k]? = some .register)
    (hv : x.operands[k]? = some value) : value.toNat < 8 := by
  cases x with
  | load r _ =>
    rcases k with _ | _ | k
    · cases hv
      exact toNat_ofNat_lt r
    · cases hs
    · cases hv
  | arithmetic op a b =>
    rcases k with _ | _ | k
    · cases hv
      exact toNat_ofNat_lt a
    · cases hv
      exact toNat_ofNat_lt b
    · cases hv
  | print r =>
    rcases k with _ | k
    · cases hv
      exact toNat_ofNat_lt r
    · cases hv

/-- A state of the table holds what a snapshot tells, and the operands of a command behind its
program counter. -/
structure Faces (v : State) (s : Snapshot) (x : Command) : Prop where
  registers : v.registers = s.registers
  flags : v.flags = s.flags
  operand : ∀ (k : Nat) (value : UInt8), x.operands[k]? = some value →
    v.code (v.pc + 1 + k) = value

theorem Faces.register (h : Faces v s x) {k : Nat} {r : Fin 8}
    (hr : x.operands[k]? = some (UInt8.ofNat r)) :
    v.register (v.code (v.pc + 1 + k)) = s.registers r := by
  rw [h.operand k _ hr, State.register, fin_ofNat_ofNat, h.registers]

theorem Faces.put (h : Faces v s x) {r : Fin 8} (hr : x.operands[0]? = some (UInt8.ofNat r))
    (n : Nat) :
    v.setRegister v.first (UInt8.ofNat n) =
      { v with registers := (s.put r n).registers, flags := (s.put r n).flags } := by
  have hfirst : v.first = UInt8.ofNat r := h.operand 0 _ hr
  have hflags : (s.put r n).flags = v.flags := h.flags.symm
  rw [State.setRegister, hfirst, fin_ofNat_ofNat, h.registers, hflags]
  rfl

theorem Faces.refusal (h : Faces v s x) :
    (s.Refuses x → (row x.instruction).refusal v = some .divisionByZero) ∧
      (¬ s.Refuses x → (row x.instruction).refusal v = none) := by
  refine ⟨?_, fun hn ↦ ?_⟩
  · rintro ⟨a, b, rfl, hb⟩
    have hsecond : v.register v.second = s.registers b := h.register (k := 1) rfl
    exact if_pos (hsecond.trans hb)
  · rcases x with _ | ⟨_ | _ | _ | _ | _, a, b⟩ | _
    case arithmetic.div =>
      have hsecond : v.register v.second = s.registers b := h.register (k := 1) rfl
      exact if_neg fun hb ↦ hn ⟨a, b, rfl, hsecond.symm.trans hb⟩
    all_goals rfl

theorem Faces.printed (h : Faces v s x) :
    (s.after x).printed = s.printed ++ ((row x.instruction).printed v).toList := by
  rcases x with _ | ⟨_ | _ | _ | _ | _, _, _⟩ | r
  case print =>
    have hfirst : v.register v.first = s.registers r := h.register (k := 0) rfl
    exact congrArg (fun value ↦ s.printed ++ [value]) hfirst.symm
  all_goals exact (List.append_nil _).symm

theorem compare_flags (m n : Nat) :
    (match compare m n with | .eq => 0b001 | .lt => 0b010 | .gt => 0b011) =
      if m = n then (1 : UInt8) else if m < n then 2 else 3 := by
  rcases Nat.lt_trichotomy m n with h | rfl | h
  · rw [Nat.compare_eq_lt.mpr h, if_neg (Nat.ne_of_lt h), if_pos h]
  · rw [Nat.compare_eq_eq.mpr rfl, if_pos rfl]
  · rw [Nat.compare_eq_gt.mpr h, if_neg (Nat.ne_of_gt h), if_neg (Nat.not_lt_of_gt h)]

/-- A command does to a state what its row of the table does. -/
theorem Faces.effect (h : Faces v s x) :
    (row x.instruction).effect v =
      { v with
        registers := (s.after x).registers
        flags := (s.after x).flags }.advance x.bytes.length := by
  cases x with
  | load r value =>
    have hsecond : v.second = UInt8.ofNat value.toNat :=
      (h.operand 1 value rfl).trans UInt8.ofNat_toNat.symm
    have hput := h.put (r := r) rfl value.toNat
    rw [← hsecond] at hput
    exact congrArg (State.advance · 3) hput
  | print r =>
    have hregisters : (s.after (.print r)).registers = v.registers := h.registers.symm
    have hflags : (s.after (.print r)).flags = v.flags := h.flags.symm
    rw [hregisters, hflags]
    rfl
  | arithmetic op a b =>
    have hfirst : v.register v.first = s.registers a := h.register (k := 0) rfl
    have hsecond : v.register v.second = s.registers b := h.register (k := 1) rfl
    have hput (n : Nat) := congrArg (State.advance · 3) (h.put (r := a) rfl n)
    cases op with
    | add | mul | div =>
      simp only [Command.instruction, row, arithmetic, hfirst, hsecond]
      exact hput _
    | sub =>
      have hle : (s.registers b).toNat ≤ 256 := Nat.le_of_lt (s.registers b).toNat_lt
      simp only [Command.instruction, row, arithmetic, hfirst, hsecond]
      rw [← Nat.sub_add_comm hle]
      exact hput _
    | compare =>
      have hregisters : (s.after (.arithmetic .compare a b)).registers = v.registers :=
        h.registers.symm
      have hflags : (s.after (.arithmetic .compare a b)).flags = _ := (compare_flags _ _).symm
      simp only [Command.instruction, row, hfirst, hsecond, hregisters, hflags]
      rfl

end

section

variable {c d : Computer} {output : Output} {memory : Memory} {s : Snapshot} {pc : Nat}
  {x : Command}

theorem Shows.faces (h : Shows output memory s pc c)
    (hs : c.machine.Stands x.instruction x.operands) : Faces c.view s x :=
  ⟨h.registers, h.flags, fun _ _ hk ↦ (hs.operand hk).2⟩

theorem Shows.neverFails (h : Shows output memory s pc c) (ho : output.NeverFails) :
    c.output.NeverFails :=
  ho.of_receives h.printed

theorem Shows.step (h : Shows output memory s pc c)
    (hs : c.machine.Stands x.instruction x.operands) (hx : ¬ s.Refuses x)
    (ho : output.NeverFails) :
    c.step.result = .ok true ∧
      Shows output memory (s.after x) (pc + x.bytes.length) c.step.computer := by
  have hf := h.faces hs
  have hfault : (row x.instruction).fault? c.view = none :=
    (Computer.fault?_of_stands hs).trans (hf.refusal.2 hx)
  obtain ⟨hresult, hview, houtput⟩ := Computer.step_of_row hs.fetch_eq hfault fun value _ ↦
    (h.neverFails ho).isOk value
  rw [hf.effect] at hresult hview
  have hmemory : c.step.computer.machine.memory.get = c.machine.memory.get :=
    congrArg State.memory hview
  have hpc : c.step.computer.machine.pc = c.machine.pc + x.bytes.length := congrArg State.pc hview
  refine ⟨hresult, congrArg State.registers hview, congrArg State.flags hview, ?_, ?_, ?_⟩
  · rw [houtput, hf.printed]
    exact h.printed.append ((h.neverFails ho).receives_offer _)
  · rw [hpc, h.pc]
  · rw [Memory.get_injective hmemory, h.memory]

theorem Shows.step_of_refuses (h : Shows output memory s pc c)
    (hs : c.machine.Stands x.instruction x.operands) (hx : s.Refuses x) :
    c.step.result = .error .divisionByZero ∧ Shows output memory s pc c.step.computer := by
  have hfault : (row x.instruction).fault? c.view = some .divisionByZero :=
    (Computer.fault?_of_stands hs).trans ((h.faces hs).refusal.1 hx)
  rw [Computer.step_of_fault hs.fetch_eq hfault]
  exact ⟨rfl, h.registers, h.flags, h.printed, h.pc, h.memory⟩

theorem Shows.step_of_halt (h : Shows output memory s pc c)
    (hs : c.machine.Stands .halt []) :
    c.step.result = .ok false ∧ Shows output memory s pc c.step.computer := by
  obtain ⟨hresult, hview, houtput⟩ := Computer.step_of_row hs.fetch_eq rfl nofun
  refine ⟨hresult, ?_, ?_, ?_, ?_, ?_⟩
  · exact (congrArg State.registers hview).trans h.registers
  · exact (congrArg State.flags hview).trans h.flags
  · rw [houtput]
    exact h.printed
  · exact (congrArg State.pc hview).trans h.pc
  · exact (Memory.get_injective (congrArg State.memory hview)).trans h.memory

end

theorem code_append (p q : List Command) : code (p ++ q) = code p ++ code q :=
  List.flatMap_append

theorem code_singleton (x : Command) : code [x] = x.bytes :=
  List.flatMap_singleton ..

theorem fold_concat (stackTop : UInt8) (p : List Command) (x : Command) :
    fold stackTop (p ++ [x]) = (fold stackTop p).after x :=
  List.foldl_concat ..

section

variable {p : List Command} {m : Machine} {x : Command} {k : Nat}

theorem take_succ_of_getElem? (hx : p[k]? = some x) : p.take (k + 1) = p.take k ++ [x] := by
  rw [List.take_add_one, hx]
  rfl

theorem program_eq (hx : p[k]? = some x) :
    program p = code (p.take k) ++ (x.bytes ++ program (p.drop (k + 1))) := by
  have hcode : code p = code (p.take k) ++ x.bytes ++ code (p.drop (k + 1)) := by
    rw [← code_singleton, ← code_append, ← code_append, ← take_succ_of_getElem? hx,
      List.take_append_drop]
  rw [program, hcode, List.append_assoc, List.append_assoc]
  rfl

theorem stands_of_program (hm : m.Holds 0 (program p)) (hx : p[k]? = some x)
    (hpc : m.pc = (code (p.take k)).length) : m.Stands x.instruction x.operands := by
  rw [program_eq hx] at hm
  have hbytes := hm.right.left
  rw [Nat.zero_add, ← hpc] at hbytes
  exact ⟨length_operands x, hbytes, fun _ _ ↦ operands_lt⟩

theorem stands_of_end (hm : m.Holds 0 (program p)) (hpc : m.pc = (code p).length) :
    m.Stands .halt [] := by
  have hbytes := Machine.Holds.right hm
  rw [Nat.zero_add, ← hpc] at hbytes
  exact ⟨rfl, hbytes, nofun⟩

end

section

variable {c : Computer} {stackTop : UInt8} {p : List Command}

/-- As long as no command fails, the steps have come to where the fold has, and to the place behind
the commands carried out. -/
theorem shows_after (hc : Shows c.output c.machine.memory (.fresh stackTop) 0 c)
    (hp : c.machine.Holds 0 (program p)) (ho : c.output.NeverFails) {k : Nat} (hk : k ≤ p.length)
    (hok : ∀ j < k, ¬ FailsAt stackTop p j) :
    c.GoesOn k ∧ Shows c.output c.machine.memory (fold stackTop (p.take k))
      (code (p.take k)).length (c.after k) := by
  induction k with
  | zero => exact ⟨c.goesOn_zero, hc⟩
  | succ k ih =>
    obtain ⟨hgo, hs⟩ := ih (Nat.le_of_succ_le hk) fun j hj ↦ hok j (Nat.lt_succ_of_lt hj)
    have hx : p[k]? = some p[k] := List.getElem?_eq_getElem hk
    have hstands := stands_of_program (hp.congr hs.memory) hx hs.pc
    have hr : ¬ (fold stackTop (p.take k)).Refuses p[k] := fun hr ↦
      hok k (Nat.lt_succ_self k) ⟨p[k], hx, hr⟩
    obtain ⟨hresult, hnext⟩ := hs.step hstands hr ho
    refine ⟨hgo.succ hresult, ?_⟩
    rw [take_succ_of_getElem? hx, fold_concat, code_append, code_singleton, List.length_append,
      Computer.after_succ]
    exact hnext

theorem run_of_carriedOut (hc : Shows c.output c.machine.memory (.fresh stackTop) 0 c)
    (hp : c.machine.Holds 0 (program p)) (ho : c.output.NeverFails)
    (hl : ∀ limit ∈ c.stepLimit, p.length < limit) (hok : ∀ k, ¬ FailsAt stackTop p k) :
    ∃ d, c.run = some ⟨.ok (p.length + 1), d⟩ ∧
      Shows c.output c.machine.memory (fold stackTop p) (code p).length d := by
  obtain ⟨hgo, hs⟩ := shows_after hc hp ho (Nat.le_refl p.length) fun j _ ↦ hok j
  rw [List.take_length] at hs
  obtain ⟨hresult, hend⟩ := hs.step_of_halt (stands_of_end (hp.congr hs.memory) hs.pc)
  rw [← Computer.after_succ] at hend
  exact ⟨_, Computer.run_of_halt hgo hl hresult, hend.registers, hend.flags, hend.printed,
    hend.pc, hend.memory⟩

theorem run_of_failsAt (hc : Shows c.output c.machine.memory (.fresh stackTop) 0 c)
    (hp : c.machine.Holds 0 (program p)) (ho : c.output.NeverFails)
    (hl : ∀ limit ∈ c.stepLimit, p.length < limit) {j : Nat} (hj : FailsAt stackTop p j)
    (hok : ∀ k < j, ¬ FailsAt stackTop p k) :
    ∃ d, c.run = some ⟨.error .divisionByZero, d⟩ ∧
      Shows c.output c.machine.memory (fold stackTop (p.take j)) (code (p.take j)).length d := by
  obtain ⟨x, hx, hr⟩ := hj
  obtain ⟨hlt, -⟩ := List.getElem?_eq_some_iff.mp hx
  obtain ⟨hgo, hs⟩ := shows_after hc hp ho (Nat.le_of_lt hlt) hok
  obtain ⟨hresult, hend⟩ := hs.step_of_refuses (stands_of_program (hp.congr hs.memory) hx hs.pc) hr
  rw [← Computer.after_succ] at hend
  refine ⟨_, Computer.run_of_error hgo (fun limit hm ↦ Nat.lt_trans hlt (hl limit hm)) hresult, ?_⟩
  exact ⟨hend.registers, hend.flags, hend.printed, hend.pc, hend.memory⟩

end

theorem registers_initial (stackTop : UInt8) (running : Bool) :
    (State.of (Machine.initial stackTop) running).registers =
      (Snapshot.fresh stackTop).registers := by
  funext r
  have hr := r.isLt
  have hset : ((Vector.replicate 8 (0 : UInt8)).set 7 stackTop)[r.val] =
      if r.val = 7 then stackTop else 0 := by
    rw [Vector.getElem_set, Vector.getElem_replicate]
    exact if_congr eq_comm rfl rfl
  exact hset

theorem shows_load {settings : Settings} {output : Output} {log : Log} {bytes : List UInt8}
    {c : Computer} (h : (Computer.new settings output log).load bytes = .ok c) :
    Shows output c.machine.memory (.fresh settings.stackTop) 0 c ∧ c.output = output ∧
      c.stepLimit = settings.stepLimit := by
  obtain ⟨memory, -, hc⟩ := bind_eq_ok_iff.mp h
  cases hc
  exact ⟨⟨registers_initial settings.stackTop false, rfl, rfl, rfl, rfl⟩, rfl, rfl⟩

/-- A straight-line program computes its fold. On a fresh computer whose output never fails and
whose limit leaves room for all its steps, it is carried out up to the halt behind it, or up to its
first division by zero. -/
theorem run_computes_fold (p : List Command) (settings : Settings) (output : Output) (log : Log)
    (ho : output.NeverFails) (hp : (program p).length ≤ 256)
    (hl : ∀ limit ∈ settings.stepLimit, p.length + 1 ≤ limit) :
    ∃ c, (Computer.new settings output log).load (program p) = .ok c ∧
      ((∀ k, ¬ FailsAt settings.stackTop p k) →
        ∃ d, c.run = some ⟨.ok (p.length + 1), d⟩ ∧
          Shows output c.machine.memory (fold settings.stackTop p) (code p).length d) ∧
      ∀ j, FailsAt settings.stackTop p j → (∀ k < j, ¬ FailsAt settings.stackTop p k) →
        ∃ d, c.run = some ⟨.error .divisionByZero, d⟩ ∧
          Shows output c.machine.memory (fold settings.stackTop (p.take j))
            (code (p.take j)).length d := by
  obtain ⟨c, hload, hholds⟩ := (Computer.new settings output log).load_holds hp
  obtain ⟨hshows, rfl, hlimit⟩ := shows_load hload
  rw [← hlimit] at hl
  exact ⟨c, hload, run_of_carriedOut hshows hholds ho hl,
    fun _ hj hok ↦ run_of_failsAt hshows hholds ho hl hj hok⟩

def doubling (r : Fin 8) : List Command :=
  [.arithmetic .add r r, .print r]

def dividing (a b : Fin 8) : List Command :=
  [.load a 5, .print a, .arithmetic .div a b, .print a]

theorem run_computes_fold_doubling :
    (∃ c d, (Computer.new ⟨0xC8, some 3, false⟩ (.values #[]) ⟨.warn, #[]⟩).load
        (program (doubling 7)) = .ok c ∧
      c.run = some ⟨.ok 3, d⟩ ∧ d.view.registers 7 = 144 ∧
      d.output = .values #[144] ∧ d.machine.pc = 5) ∧
    ∃ c d, (Computer.new {} (.values #[]) ⟨.warn, #[]⟩).load (program (dividing 0 1)) = .ok c ∧
      c.run = some ⟨.error .divisionByZero, d⟩ ∧ d.view.registers 0 = 5 ∧
      d.output = .values #[5] ∧ d.machine.pc = 5 := by
  have ho : (Output.values #[]).NeverFails := Output.neverFails_values #[]
  have hdoubling (k : Nat) : ¬ FailsAt 0xC8 (doubling 7) k := by
    rintro ⟨x, hx, a, b, rfl, -⟩
    rcases k with _ | _ | k <;> cases hx
  have hdividing (k : Nat) (hk : k < 2) : ¬ FailsAt 0xF4 (dividing 0 1) k := by
    rintro ⟨x, hx, a, b, rfl, -⟩
    obtain rfl | rfl : k = 0 ∨ k = 1 := by omega
    · cases hx
    · cases hx
  refine ⟨?_, ?_⟩
  · obtain ⟨c, hload, hrun, -⟩ := run_computes_fold (doubling 7) ⟨0xC8, some 3, false⟩
      (.values #[]) ⟨.warn, #[]⟩ ho (by decide) (by simp [doubling])
    obtain ⟨d, hr, hs⟩ := hrun hdoubling
    refine ⟨c, d, hload, hr, ?_, ?_, hs.pc⟩
    · exact congrFun hs.registers 7
    · exact (Except.ok.inj hs.printed).symm
  · obtain ⟨c, hload, -, hrun⟩ := run_computes_fold (dividing 0 1) {} (.values #[]) ⟨.warn, #[]⟩
      ho (by decide) nofun
    obtain ⟨d, hr, hs⟩ := hrun 2 ⟨.arithmetic .div 0 1, rfl, 0, 1, rfl, rfl⟩ hdividing
    refine ⟨c, d, hload, hr, ?_, ?_, hs.pc⟩
    · exact congrFun hs.registers 0
    · exact (Except.ok.inj hs.printed).symm

end ByteMachine.StraightLine
