import ByteMachine.Computer.Step

namespace ByteMachine

inductive Progress
  | ended (outcome : Outcome Nat)
  | paused (taken : Nat) (computer : Computer)

namespace Computer

def stop (c : Computer) : Computer :=
  { c with status := .halted }

def exhausted? (c : Computer) (taken : Nat) : Option Nat :=
  c.stepLimit.filter (· ≤ taken)

/-- Continues a run that has taken some steps by at most `fuel` more. -/
def advance : Nat → Nat → Computer → Progress
  | 0, taken, c => .paused taken c
  | fuel + 1, taken, c =>
    match c.exhausted? taken with
    | some limit =>
      .ended ⟨.error (.stepLimitExceeded limit), c.stop.tell (.stopping c.machine.pc limit)⟩
    | none =>
      match c.step with
      | ⟨.error fault, c⟩ => .ended ⟨.error fault, c.stop⟩
      | ⟨.ok false, c⟩ => .ended ⟨.ok (taken + 1), c.tell (.halted (taken + 1))⟩
      | ⟨.ok true, c⟩ => advance fuel (taken + 1) c

def start (c : Computer) : Computer :=
  { c with status := .running }

def fillings (bytes : Nat) : Nat :=
  Nat.pow 256 bytes

def configurations (c : Computer) : Nat :=
  fillings (256 + 8 + 1) * 257 * (c.output.room + 1)

/-- More steps than any run takes that ends. -/
def patience (c : Computer) : Nat :=
  match c.stepLimit with
  | some limit => limit + 1
  | none => c.configurations + 1

/-- Runs until the computer halts and answers the number of steps, the last one included; `none` if
the run never ends. -/
def run (c : Computer) : Option (Outcome Nat) :=
  match advance c.patience 0 c.start with
  | .ended outcome => some outcome
  | .paused _ _ => none

end Computer

end ByteMachine
