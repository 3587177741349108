namespace ByteMachine.Text.Numeral

inductive Refusal
  | empty
  | invalidDigit
  | tooLarge
  deriving DecidableEq

def Refusal.message : Refusal → String
  | .empty => "cannot parse integer from empty string"
  | .invalidDigit => "invalid digit found in string"
  | .tooLarge => "number too large to fit in target type"

def digitValue? (c : Char) : Option Nat :=
  if c.isDigit then some (c.toNat - '0'.toNat)
  else if c.isLower then some (c.toNat - 'a'.toNat + 10)
  else if c.isUpper then some (c.toNat - 'A'.toNat + 10)
  else none

def readDigits (base limit : Nat) : Nat → List Char → Except Refusal Nat
  | value, [] => .ok value
  | value, c :: rest =>
    match (digitValue? c).filter (· < base) with
    | none => .error .invalidDigit
    | some digit =>
      if value * base + digit ≤ limit then readDigits base limit (value * base + digit) rest
      else .error .tooLarge

/-- Reads digits, with at most one plus sign in front. -/
def read (base limit : Nat) : List Char → Except Refusal Nat
  | [] => .error .empty
  | ['+'] => .error .invalidDigit
  | '+' :: digits => readDigits base limit 0 digits
  | digits => readDigits base limit 0 digits

/-- The digits of a number, filled up with zeros to a least width. -/
def write (base width n : Nat) : List Char :=
  (Nat.toDigits base n).leftpad width '0'

def decimal (n : Nat) : List Char :=
  write 10 1 n

def upperHexadecimal (n : Nat) : List Char :=
  (write 16 2 n).map Char.toUpper

def hexadecimal (n : Nat) : String :=
  "0x" ++ String.ofList (write 16 2 n)

def binary (n : Nat) : String :=
  "0b" ++ String.ofList (write 2 8 n)

end ByteMachine.Text.Numeral
