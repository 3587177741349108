import ByteMachine.CommandLine.Argument
import ByteMachine.CommandLine.Refusal
import ByteMachine.Log

namespace ByteMachine.CommandLine

open Text

structure Draft where
  program : Option String := none
  switches : List Switch := []
  maxSteps : Option Nat := none
  stackTop : Option UInt8 := none
  verbosity : Nat := 0

/-- A byte, in decimal or behind `0x` in hexadecimal. -/
def readByte (text : List Char) : Except Numeral.Refusal UInt8 :=
  match text with
  | '0' :: 'x' :: digits => (Numeral.read 16 255 digits).map UInt8.ofNat
  | digits => (Numeral.read 10 255 digits).map UInt8.ofNat

namespace Draft

def flip (d : Draft) (switch : Switch) : Except Refusal Draft :=
  if switch ∈ d.switches then .error (.repeated switch.name)
  else .ok { d with switches := switch :: d.switches }

def assign (d : Draft) (setting : Setting) (value : String) : Except Refusal Draft :=
  match setting with
  | .maxSteps =>
    if d.maxSteps.isSome then .error (.repeated setting.name)
    else match Numeral.read 10 (UInt64.size - 1) value.toList with
      | .ok n => .ok { d with maxSteps := some n }
      | .error reason => .error (.notANumber setting.name value reason)
  | .stackTop =>
    if d.stackTop.isSome then .error (.repeated setting.name)
    else match readByte value.toList with
      | .ok b => .ok { d with stackTop := some b }
      | .error reason => .error (.notAByte value reason)

/-- Looks at a value that stood as an argument of its own. -/
def settle (d : Draft) : Option (Setting × String) → Except Refusal Draft
  | none => .ok d
  | some (setting, value) => d.assign setting value

def place (d : Draft) (waiting : Option (Setting × String)) (text : String) :
    Except Refusal Draft := do
  if d.program.isSome then .error (.unexpectedArgument text)
  let d ← d.settle waiting
  if text = "" then .error .emptyProgram else return { d with program := some text }

def letters (d : Draft) (waiting : Option (Setting × String)) (text : String) :
    List Char → Except Refusal Draft
  | [] => d.settle waiting
  | 'v' :: rest => do
    let d ← d.settle waiting
    letters { d with verbosity := d.verbosity + 1 } none text rest
  | 'h' :: _ => do
    let _ ← d.settle waiting
    .error .help
  | _ => .error (.unknownOption text)

end Draft

def readPlain (d : Draft) (waiting : Option (Setting × String)) :
    List String → Except Refusal Draft
  | [] => d.settle waiting
  | text :: rest => do
    let d ← d.place waiting text
    readPlain d none rest

/-- Takes arguments from left to right, up to the first wrong one. A value that is an argument of
its own is waiting: it is looked at when the argument behind it is known to be acceptable. -/
def readArguments (d : Draft) (waiting : Option (Setting × String)) :
    List String → Except Refusal Draft
  | [] => d.settle waiting
  | text :: rest =>
    match Argument.ofText text with
    | .terminator => readPlain d waiting rest
    | .unknown => .error (.unknownOption text)
    | .valued name => .error (.unexpectedValue name)
    | .plain text => do
      let d ← d.place waiting text
      readArguments d none rest
    | .letters letters => do
      let d ← d.letters waiting text letters
      readArguments d none rest
    | .switch switch => do
      let d ← d.settle waiting
      let d ← d.flip switch
      readArguments d none rest
    | .verbose => do
      let d ← d.settle waiting
      readArguments { d with verbosity := d.verbosity + 1 } none rest
    | .help => do
      let _ ← d.settle waiting
      .error .help
    | .setting setting (some value) => do
      let d ← d.settle waiting
      let d ← d.assign setting value
      readArguments d none rest
    | .setting setting none => do
      let d ← d.settle waiting
      match rest with
      | [] => .error (.missingValue setting.name)
      | value :: rest =>
        match Argument.ofText value with
        | .plain _ => readArguments d (some (setting, value)) rest
        | _ => .error (.missingValue setting.name)

structure Options where
  program : String
  assembly : Bool
  maxSteps : Option Nat
  stackTop : UInt8
  profile : Bool
  level : Level

def levelOf : Nat → Level
  | 0 => .warn
  | 1 => .info
  | 2 => .debug
  | _ => .trace

def Options.read (arguments : List String) : Except Refusal Options := do
  let d ← readArguments {} none arguments
  match d.program with
  | none => .error .missingProgram
  | some program =>
    return {
      program
      assembly := .assemble ∈ d.switches
      maxSteps := d.maxSteps
      stackTop := d.stackTop.getD Registers.defaultTop
      profile := .profile ∈ d.switches
      level := if .trace ∈ d.switches then .trace else levelOf d.verbosity }

end ByteMachine.CommandLine
