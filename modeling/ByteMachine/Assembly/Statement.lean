import ByteMachine.Assembly.Operand
import ByteMachine.Text.Blank
import ByteMachine.Text.Pieces

namespace ByteMachine.Assembly

open Text

inductive Directive
  | instruction (instruction : Instruction)
  | data
  deriving DecidableEq

namespace Directive

def ofWord? (word : List Char) : Option Directive :=
  if word = ['D', 'B'] then some data
  else (Instruction.ofMnemonic? (String.ofList word)).map instruction

/-- How many operands have to follow, when `found` of them do: data takes any number but none. -/
def arity (found : Nat) : Directive → Nat
  | instruction i => i.slots.length
  | data => max found 1

def slots (found : Nat) : Directive → List Slot
  | instruction i => i.slots
  | data => List.replicate found .immediate

def opcode? : Directive → Option UInt8
  | instruction i => some i.opcode
  | data => none

end Directive

structure Statement where
  line : Nat
  directive : Directive
  operands : List (List Char)
  deriving DecidableEq

namespace Statement

def size (s : Statement) : Nat :=
  match s.directive with
  | .instruction i => 1 + operandCount i.opcode
  | .data => s.operands.length

/-- The operands behind the word of a statement; commas with nothing between them are ignored. -/
def operandTexts (tail : List Char) : List (List Char) :=
  ((pieces ',' tail).map trim).filter (· ≠ [])

def read (line : Nat) (text : List Char) : Except ProgramError Statement :=
  let word := text.takeWhile (!isBlank ·)
  let operands := operandTexts (text.dropWhile (!isBlank ·))
  let upper := word.map Char.toUpper
  match Directive.ofWord? upper with
  | none => .error (.unknownMnemonic line (String.ofList word))
  | some directive =>
    let expected := directive.arity operands.length
    if operands.length = expected then .ok ⟨line, directive, operands⟩
    else .error (.operandCount line (String.ofList upper) expected operands.length)

def encode (labels : Labels) (s : Statement) : Except ProgramError (List UInt8) := do
  let slots := s.directive.slots s.operands.length
  let values ← (slots.zip s.operands).mapM fun (slot, text) ↦ resolve labels s.line slot text
  return s.directive.opcode?.toList ++ values

end Statement

/-- Takes the labels off a text; `seen` is what was read, backwards, since the last colon. A text
before a colon that is no identifier ends the labels. -/
def splitLabels (seen : List Char) : List Char → List (List Char) × List Char
  | [] => ([], seen.reverse)
  | c :: rest =>
    if c = ':' then
      let label := trim seen.reverse
      if isIdentifier label then
        let (labels, tail) := splitLabels [] rest
        (label :: labels, tail)
      else ([], seen.reverse ++ c :: rest)
    else splitLabels (c :: seen) rest

/-- The labels of a line and what stands behind them, without the comment and the blanks around. -/
def splitLine (line : List Char) : List (List Char) × List Char :=
  let (labels, tail) := splitLabels [] (line.takeWhile (· ≠ ';'))
  (labels, trim tail)

end ByteMachine.Assembly
