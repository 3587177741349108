import ByteMachine.Instruction
import ByteMachine.ProgramError
import ByteMachine.Text.Numeral

namespace ByteMachine.Assembly

open Text

abbrev Labels := List (List Char × Nat)

def isNameStart (c : Char) : Bool :=
  c.isAlpha || c = '_'

def isNameChar (c : Char) : Bool :=
  c.isAlphanum || c = '_'

def isIdentifier : List Char → Bool
  | [] => false
  | c :: rest => isNameStart c && rest.all isNameChar

/-- The index of a register, written as a number behind an R. -/
def registerIndex? : List Char → Option UInt8
  | 'R' :: digits | 'r' :: digits => (Numeral.read 10 7 digits).toOption.map UInt8.ofNat
  | _ => none

/-- A number that fits a byte, as it is written: in hexadecimal behind `0x`, in binary behind `0b`,
else in decimal. -/
def number? : List Char → Option UInt8
  | '0' :: 'x' :: digits => (Numeral.read 16 255 digits).toOption.map UInt8.ofNat
  | '0' :: 'b' :: digits => (Numeral.read 2 255 digits).toOption.map UInt8.ofNat
  | digits => (Numeral.read 10 255 digits).toOption.map UInt8.ofNat

def resolveImmediate (labels : Labels) (line : Nat) (text : List Char) :
    Except ProgramError UInt8 :=
  if isIdentifier text then
    match labels.lookup text with
    | none => .error (.undefinedLabel line (String.ofList text))
    | some address =>
      if address < 256 then .ok (UInt8.ofNat address)
      else .error (.invalidOperand line (String.ofList text))
  else if text.head?.any Char.isDigit then
    match number? text with
    | some value => .ok value
    | none => .error (.invalidOperand line (String.ofList text))
  else .error (.invalidOperand line (String.ofList text))

def resolve (labels : Labels) (line : Nat) : Slot → List Char → Except ProgramError UInt8
  | .register, text =>
    match registerIndex? text with
    | some index => .ok index
    | none => .error (.invalidOperand line (String.ofList text))
  | .immediate, text => resolveImmediate labels line text

end ByteMachine.Assembly
