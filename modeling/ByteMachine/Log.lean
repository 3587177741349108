import ByteMachine.Disassembly
import ByteMachine.Machine

namespace ByteMachine

open Text

inductive Level
  | warn
  | info
  | debug
  | trace
  deriving DecidableEq

namespace Level

def rank : Level → Nat
  | warn => 0
  | info => 1
  | debug => 2
  | trace => 3

def name : Level → String
  | warn => "WARN"
  | info => "INFO"
  | debug => "DEBUG"
  | trace => "TRACE"

end Level

inductive Event
  | parsed (bytes lines : Nat)
  | loaded (bytes : Nat)
  | executing (machine : Machine)
  | stopping (pc limit : Nat)
  | halted (steps : Nat)
  deriving DecidableEq

namespace Event

def level : Event → Level
  | parsed _ _ | loaded _ => .debug
  | executing _ => .trace
  | stopping _ _ => .warn
  | halted _ => .info

def component : Event → String
  | parsed _ _ => "ls8::loader"
  | loaded _ => "ls8::computer::memory"
  | executing _ | stopping _ _ | halted _ => "ls8::computer"

def message : Event → String
  | parsed bytes lines => s!"parsed {bytes} program bytes from {lines} lines"
  | loaded bytes => s!"loaded {bytes} bytes into memory"
  | executing m =>
    m.traceLine ++ " " ++ (disassemble (m.memory.cells.toList.drop m.pc)).toOption.getD ""
  | stopping pc limit =>
    s!"stopping at pc {Numeral.hexadecimal pc} after {limit} steps"
  | halted steps => s!"halted after {steps} steps"

end Event

structure Log where
  threshold : Level
  events : Array Event := #[]

def Log.record (log : Log) (event : Event) : Log :=
  if event.level.rank ≤ log.threshold.rank then { log with events := log.events.push event }
  else log

end ByteMachine
