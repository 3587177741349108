import ByteMachine.Assembly
import ByteMachine.Listing
import ByteMachine.Proofs.Runs

namespace ByteMachine

inductive Source
  | bytes (program : List UInt8)
  | assembly (text : List Char)
  | listing (text : List Char)

def Source.program (log : Log) : Source → Except ProgramError (List UInt8) × Log
  | bytes program => (.ok program, log)
  | assembly text => (assemble text, log)
  | listing text => Listing.load text log

/-- The memory that a program from some source is loaded into, with the program in it. -/
def Source.image (source : Source) (memory : Memory) : Except Fault Memory :=
  match (source.program ⟨.warn, #[]⟩).1 with
  | .error error => .error (.load error)
  | .ok program => memory.load program

theorem Source.program_fst (source : Source) (log log' : Log) :
    (source.program log).1 = (source.program log').1 := by
  cases source with
  | bytes program => rfl
  | assembly text => rfl
  | listing text =>
    rw [program, program, Listing.load, Listing.load]
    cases Listing.read text <;> rfl

inductive Call
  | load (source : Source)
  | step
  | run
  | combine (op : Arithmetic) (first second : UInt8)

inductive Reply
  | done
  | running (running : Bool)
  | ended (steps : Nat)

def Outcome.map {α β : Type} (f : α → β) (o : Outcome α) : Outcome β :=
  ⟨o.result.map f, o.computer⟩

namespace Computer

/-- Loads a program. One that cannot be read or does not fit leaves the machine as it was. -/
def loadFrom (c : Computer) (source : Source) : Outcome Unit :=
  let (program, log) := source.program c.log
  let d := { c with log }
  match program with
  | .error error => ⟨.error (.load error), d⟩
  | .ok program =>
    match d.load program with
    | .error fault => ⟨.error fault, d⟩
    | .ok loaded => ⟨.ok (), loaded⟩

/-- What a call answers and the computer it leaves; `none` if it is a run that never ends. -/
def call (c : Computer) : Call → Option (Outcome Reply)
  | .load source => some ((c.loadFrom source).map fun _ ↦ .done)
  | .step => some (c.step.map .running)
  | .run => c.run.map (·.map .ended)
  | .combine op first second =>
    some (((Operation.combine op first second).outcome c).map fun _ ↦ .done)

/-- Makes calls one after the other, whatever they answer. -/
def session (c : Computer) : List Call → Option (List (Except Fault Reply) × Computer)
  | [] => some ([], c)
  | call :: calls => do
    let outcome ← c.call call
    let (replies, d) ← outcome.computer.session calls
    return (outcome.result :: replies, d)

def marked (c : Computer) (status : Status) (log : Log) : Computer :=
  { c with status, log }

def withMachine (c : Computer) (machine : Machine) : Computer :=
  { c with machine }

theorem loadFrom_eq (c : Computer) (source : Source) :
    ∃ log, c.loadFrom source =
      match source.image c.machine.memory with
      | .error fault => ⟨.error fault, c.marked c.status log⟩
      | .ok memory =>
        ⟨.ok (), (c.withMachine { c.machine with memory }).marked c.status log⟩ := by
  have hp := source.program_fst ⟨.warn, #[]⟩ c.log
  rw [loadFrom, Source.image, hp]
  rcases source.program c.log with ⟨error | program, log⟩
  · exact ⟨log, rfl⟩
  · dsimp only
    rw [load]
    cases c.machine.memory.load program with
    | error fault => exact ⟨log, rfl⟩
    | ok memory => exact ⟨_, rfl⟩

theorem computer_loadFrom (c : Computer) (source : Source) :
    ∃ memory log, (c.loadFrom source).computer =
      (c.withMachine { c.machine with memory }).marked c.status log := by
  obtain ⟨log, hc⟩ := c.loadFrom_eq source
  rw [hc]
  cases source.image c.machine.memory with
  | error fault => exact ⟨c.machine.memory, log, rfl⟩
  | ok memory => exact ⟨memory, log, rfl⟩

variable {c d : Computer} {P : Computer → Prop}

theorem session_cons {call : Call} {calls : List Call} {replies : List (Except Fault Reply)}
    (h : c.session (call :: calls) = some (replies, d)) :
    ∃ outcome rest, c.call call = some outcome ∧
      outcome.computer.session calls = some (rest, d) ∧ replies = outcome.result :: rest := by
  rw [session] at h
  obtain ⟨outcome, ho, h⟩ := Option.bind_eq_some_iff.mp h
  obtain ⟨⟨rest, e⟩, hr, h⟩ := Option.bind_eq_some_iff.mp h
  cases h
  exact ⟨outcome, rest, ho, hr, rfl⟩

theorem session_of_call {call : Call} {calls : List Call} {outcome : Outcome Reply}
    {rest : List (Except Fault Reply)} (ho : c.call call = some outcome)
    (hr : outcome.computer.session calls = some (rest, d)) :
    c.session (call :: calls) = some (outcome.result :: rest, d) := by
  rw [session, ho]
  simp only [hr, Option.bind_eq_bind, Option.bind_some, Option.pure_def]

theorem session_append {before after : List Call} {replies : List (Except Fault Reply)}
    (h : c.session (before ++ after) = some (replies, d)) :
    ∃ e first last, c.session before = some (first, e) ∧ e.session after = some (last, d) ∧
      replies = first ++ last := by
  induction before generalizing c replies with
  | nil => exact ⟨c, [], replies, rfl, h, rfl⟩
  | cons call before ih =>
    obtain ⟨outcome, rest, ho, hs, rfl⟩ := session_cons h
    obtain ⟨e, first, last, hf, hl, rfl⟩ := ih hs
    exact ⟨e, outcome.result :: first, last, session_of_call ho hf, hl, rfl⟩

/-- What every call keeps, a session keeps. -/
theorem session_induction
    (hcall : ∀ c call outcome, P c → c.call call = some outcome → P outcome.computer)
    {calls : List Call} {replies : List (Except Fault Reply)}
    (h : c.session calls = some (replies, d)) (hc : P c) : P d := by
  induction calls generalizing c replies with
  | nil =>
    cases h
    exact hc
  | cons call calls ih =>
    obtain ⟨outcome, rest, ho, hs, -⟩ := session_cons h
    exact ih hs (hcall c call outcome hc ho)

theorem after_induction (hstep : ∀ c, P c → P c.step.computer) (hc : P c) (n : Nat) :
    P (c.after n) := by
  induction n with
  | zero => exact hc
  | succ n ih =>
    rw [after_succ]
    exact hstep _ ih

/-- What every step keeps, and what does not ask for status and log, a run keeps. -/
theorem run_induction (hstep : ∀ c, P c → P c.step.computer) (hstop : ∀ c, P c → P c.stop)
    (htell : ∀ c event, P c → P (c.tell event)) {outcome : Outcome Nat}
    (h : c.run = some outcome) (hc : P c) : P outcome.computer := by
  cases ends_of_run h with
  | halt n => exact htell _ _ (after_induction hstep hc _)
  | error n => exact hstop _ (after_induction hstep hc _)
  | limit limit => exact htell _ _ (hstop _ (after_induction hstep hc _))

end Computer

end ByteMachine
