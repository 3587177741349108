namespace ByteMachine

inductive ReadFailure
  | system (description : String) (code : Nat)
  | notUnicode
  deriving DecidableEq

def ReadFailure.message : ReadFailure → String
  | .system description code => s!"{description} (os error {code})"
  | .notUnicode => "stream did not contain valid UTF-8"

/-- Lines count from 1. Texts are quoted as they are written, but the mnemonic of a wrong number of
operands is in upper case. -/
inductive ProgramError
  | invalidLiteral (line : Nat) (text : String)
  | programTooLarge (size : Nat)
  | unknownMnemonic (line : Nat) (word : String)
  | operandCount (line : Nat) (mnemonic : String) (expected found : Nat)
  | invalidOperand (line : Nat) (operand : String)
  | undefinedLabel (line : Nat) (label : String)
  | duplicateLabel (line : Nat) (label : String)
  | unreadable (cause : ReadFailure)
  deriving DecidableEq

namespace ProgramError

def message : ProgramError → String
  | invalidLiteral line text => s!"line {line}: `{text}` is not an 8-digit binary literal"
  | programTooLarge size => s!"program is {size} bytes but memory holds 256"
  | unknownMnemonic line word => s!"line {line}: unknown mnemonic `{word}`"
  | operandCount line mnemonic expected found =>
    s!"line {line}: {mnemonic} takes {expected} operand(s), found {found}"
  | invalidOperand line operand => s!"line {line}: invalid operand `{operand}`"
  | undefinedLabel line label => s!"line {line}: undefined label `{label}`"
  | duplicateLabel line label => s!"line {line}: label `{label}` defined twice"
  | unreadable _ => "failed to read program"

def chain : ProgramError → List String
  | unreadable cause => [message (unreadable cause), cause.message]
  | e => [e.message]

end ProgramError

end ByteMachine
