import ByteMachine.Log
import ByteMachine.Output
import ByteMachine.Profile

namespace ByteMachine

inductive Status
  | halted
  | running
  deriving DecidableEq

structure Settings where
  stackTop : UInt8 := Registers.defaultTop
  stepLimit : Option Nat := none
  profiling : Bool := false

structure Computer where
  machine : Machine
  status : Status
  stepLimit : Option Nat
  profile : Option Profile
  output : Output
  log : Log

structure Outcome (α : Type) where
  result : Except Fault α
  computer : Computer

namespace Computer

def new (settings : Settings) (output : Output) (log : Log) : Computer where
  machine := Machine.initial settings.stackTop
  status := .halted
  stepLimit := settings.stepLimit
  profile := if settings.profiling then some Profile.empty else none
  output := output
  log := log

def withRegisters (c : Computer) (registers : Registers) : Computer :=
  { c with machine := { c.machine with registers } }

def withMemory (c : Computer) (memory : Memory) : Computer :=
  { c with machine := { c.machine with memory } }

def tell (c : Computer) (event : Event) : Computer :=
  { c with log := c.log.record event }

def load (c : Computer) (program : List UInt8) : Except Fault Computer := do
  let memory ← c.machine.memory.load program
  return (c.withMemory memory).tell (.loaded program.length)

end Computer

end ByteMachine
