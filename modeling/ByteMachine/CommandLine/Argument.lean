namespace ByteMachine.CommandLine

inductive Switch
  | assemble
  | profile
  | trace
  deriving DecidableEq

inductive Setting
  | maxSteps
  | stackTop
  deriving DecidableEq

def Switch.name : Switch → String
  | assemble => "--assemble"
  | profile => "--profile"
  | trace => "--trace"

def Setting.name : Setting → String
  | maxSteps => "--max-steps"
  | stackTop => "--stack-top"

/-- What an argument is by its look alone. -/
inductive Argument
  | terminator
  | plain (text : String)
  | letters (letters : List Char)
  | switch (switch : Switch)
  | setting (setting : Setting) (value : Option String)
  | verbose
  | help
  | unknown
  | valued (name : String)
  deriving DecidableEq

def splitValue (text : List Char) : String × Option String :=
  let name := text.takeWhile (· ≠ '=')
  match text.dropWhile (· ≠ '=') with
  | [] => (String.ofList name, none)
  | _ :: value => (String.ofList name, some (String.ofList value))

def Argument.ofLong (text : List Char) : Argument :=
  let (name, value) := splitValue text
  let bare (argument : Argument) := if value.isSome then valued name else argument
  match name with
  | "assemble" => bare (switch .assemble)
  | "profile" => bare (switch .profile)
  | "trace" => bare (switch .trace)
  | "verbose" => bare verbose
  | "help" => bare help
  | "max-steps" => setting .maxSteps value
  | "stack-top" => setting .stackTop value
  | _ => unknown

def Argument.ofText (text : String) : Argument :=
  match text.toList with
  | ['-', '-'] => terminator
  | '-' :: '-' :: long => ofLong long
  | ['-'] => plain text
  | '-' :: short => letters short
  | _ => plain text

end ByteMachine.CommandLine
