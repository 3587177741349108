import ByteMachine.Action

namespace ByteMachine.Computer

def perform (c : Computer) (action : Action) (f : Fetched) : Outcome Flow :=
  (action.perform f).outcome c

def count (c : Computer) (opcode : UInt8) : Computer :=
  { c with profile := c.profile.map (·.record opcode) }

def follow (c : Computer) (f : Fetched) : Flow → Computer
  | .next => { c with machine := { c.machine with pc := f.next }, status := .running }
  | .jump address => { c with machine := { c.machine with pc := address }, status := .running }
  | .halt => { c with status := .halted }

/-- Executes one instruction and answers whether the computer is still running. -/
def step (c : Computer) : Outcome Bool :=
  match c.machine.fetch with
  | .error fault => ⟨.error fault, c⟩
  | .ok (instruction, f) =>
    match (c.tell (.executing c.machine)).perform instruction.action f with
    | ⟨.error fault, c⟩ => ⟨.error fault, c⟩
    | ⟨.ok flow, c⟩ =>
      let c := (c.count f.opcode).follow f flow
      ⟨.ok (c.status = .running), c⟩

end ByteMachine.Computer
