import ByteMachine.Text.Numeral

namespace ByteMachine

open Text

inductive Output
  | values (bytes : Array UInt8)
  | lines (text : String) (room : Option Nat)

namespace Output

def line (value : UInt8) : List Char :=
  Numeral.decimal value.toNat ++ ['\n']

/-- Prints a value. A failure holds the output with the part of the line that was written. -/
def print (value : UInt8) : Output → Except Output Output
  | values bytes => .ok (values (bytes.push value))
  | lines text none => .ok (lines (text ++ String.ofList (line value)) none)
  | lines text (some room) =>
    if (line value).length ≤ room then
      .ok (lines (text ++ String.ofList (line value)) (some (room - (line value).length)))
    else .error (lines (text ++ String.ofList ((line value).take room)) (some 0))

def room : Output → Nat
  | lines _ (some room) => room
  | _ => 0

def text : Output → String
  | values bytes => String.ofList (bytes.toList.flatMap line)
  | lines text _ => text

/-- The output without what was printed; room that was taken stays taken. -/
def drain : Output → Output
  | values _ => values #[]
  | lines _ room => lines "" room

end Output

end ByteMachine
