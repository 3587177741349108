import ByteMachine.Text.Numeral

namespace ByteMachine.CommandLine

open Text

/-- Asking for help is a reason as well, but no fault. -/
inductive Refusal
  | help
  | missingProgram
  | emptyProgram
  | unexpectedArgument (text : String)
  | unknownOption (text : String)
  | missingValue (option : String)
  | unexpectedValue (option : String)
  | repeated (option : String)
  | notANumber (option value : String) (reason : Numeral.Refusal)
  | notAByte (value : String) (reason : Numeral.Refusal)
  deriving DecidableEq

namespace Refusal

def message : Refusal → String
  | help => "usage: ls8 [OPTIONS] PROGRAM"
  | missingProgram => "a program is required"
  | emptyProgram => "the path of the program is empty"
  | unexpectedArgument text => s!"unexpected argument `{text}`"
  | unknownOption text => s!"unknown option `{text}`"
  | missingValue option => s!"a value is required for `{option}`"
  | unexpectedValue option => s!"`{option}` takes no value"
  | repeated option => s!"`{option}` cannot be used multiple times"
  | notANumber option value reason => s!"invalid value `{value}` for `{option}`: {reason.message}"
  | notAByte value reason => s!"`{value}` is not a byte: {reason.message}"

def status : Refusal → Nat
  | help => 0
  | _ => 2

end Refusal

end ByteMachine.CommandLine
