import ByteMachine.Log
import ByteMachine.Text.Blank
import ByteMachine.Text.Pieces

namespace ByteMachine.Listing

open Text

def literal? (text : List Char) : Option UInt8 :=
  if text.length = 8 ∧ text.all (fun c ↦ c = '0' ∨ c = '1') then
    some (text.foldl (fun value c ↦ 2 * value + if c = '1' then 1 else 0) 0)
  else none

/-- What is left of a line without its comment and the blanks around it. -/
def content (line : List Char) : List Char :=
  trim (line.takeWhile (· ≠ '#'))

def readLine (line : List Char) (number : Nat) : Except ProgramError (Option UInt8) :=
  match content line with
  | [] => .ok none
  | text =>
    match literal? text with
    | some byte => .ok (some byte)
    | none => .error (.invalidLiteral number (String.ofList text))

def read (source : List Char) : Except ProgramError (List UInt8) := do
  let bytes ← ((lines source).zipIdx 1).mapM fun (line, number) ↦ readLine line number
  return bytes.filterMap id

def load (source : List Char) (log : Log) : Except ProgramError (List UInt8) × Log :=
  match read source with
  | .ok program => (.ok program, log.record (.parsed program.length (lines source).length))
  | .error error => (.error error, log)

def loadFile (file : Except ReadFailure (List Char)) (log : Log) :
    Except ProgramError (List UInt8) × Log :=
  match file with
  | .ok source => load source log
  | .error failure => (.error (.unreadable failure), log)

end ByteMachine.Listing
