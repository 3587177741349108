import ByteMachine.Assembly.Statement
import ByteMachine.Proofs.Numerals
import ByteMachine.Proofs.Text

namespace ByteMachine.Assembly

open Text

inductive Argument
  | register (index : Fin 8)
  | byte (value : UInt8)
  | label (name : List Char)
  deriving DecidableEq

namespace Argument

def slot : Argument → Slot
  | register _ => .register
  | byte _ | label _ => .immediate

def code (address : List Char → Nat) : Argument → UInt8
  | register index => UInt8.ofNat index
  | byte value => value
  | label name => UInt8.ofNat (address name)

end Argument

/-- A directive with the arguments that it takes; data take one at least. -/
structure Command where
  directive : Directive
  arguments : List Argument
  slots_eq : arguments.map Argument.slot = directive.slots arguments.length
  nonempty : directive = .data → arguments ≠ []
  deriving DecidableEq

namespace Command

def size (c : Command) : Nat :=
  c.directive.opcode?.toList.length + c.arguments.length

def code (address : List Char → Nat) (c : Command) : List UInt8 :=
  c.directive.opcode?.toList ++ c.arguments.map (·.code address)

theorem length_code (address : List Char → Nat) (c : Command) :
    (c.code address).length = c.size := by
  rw [code, size, List.length_append, List.length_map]

end Command

structure Line where
  labels : List (List Char)
  command? : Option Command
  deriving DecidableEq

def Line.size (line : Line) : Nat :=
  (line.command?.map Command.size).getD 0

/-- The number of bytes before the block that has a label. A block holds the labels in front of some
bytes and the number of these bytes. -/
def offset? (name : List Char) : List (List (List Char) × Nat) → Option Nat
  | [] => none
  | (labels, size) :: blocks =>
    if name ∈ labels then some 0 else (offset? name blocks).map (size + ·)

abbrev Program := List Line

namespace Program

def labels (p : Program) : List (List Char) :=
  p.flatMap Line.labels

def commands (p : Program) : List Command :=
  p.filterMap Line.command?

def size (p : Program) : Nat :=
  (p.commands.map Command.size).sum

def address? (p : Program) (name : List Char) : Option Nat :=
  offset? name (p.map fun line ↦ (line.labels, line.size))

def code (p : Program) : List UInt8 :=
  p.commands.flatMap (·.code fun name ↦ (p.address? name).getD 0)

structure WellFormed (p : Program) : Prop where
  identifier : ∀ name ∈ p.labels, isIdentifier name
  nodup : p.labels.Nodup
  resolved : ∀ c ∈ p.commands, ∀ name, .label name ∈ c.arguments →
    ∃ address ∈ p.address? name, address ≤ 255
  size_le : p.size ≤ 256

end Program

inductive Argument.Written : Argument → List Char → Prop
  | register {index : Fin 8} {letter : Char} {digits : List Char} (hl : letter = 'R' ∨ letter = 'r')
      (hd : Numeral.Denotes 10 digits index) : Written (.register index) (letter :: digits)
  | decimal {value : UInt8} {digits : List Char} (hd : Numeral.Denotes 10 digits value.toNat) :
      Written (.byte value) digits
  | hexadecimal {value : UInt8} {digits : List Char} (hd : Numeral.Denotes 16 digits value.toNat) :
      Written (.byte value) ('0' :: 'x' :: digits)
  | binary {value : UInt8} {digits : List Char} (hd : Numeral.Denotes 2 digits value.toNat) :
      Written (.byte value) ('0' :: 'b' :: digits)
  | label (name : List Char) : Written (.label name) name

inductive WrittenArguments : List Argument → List Char → Prop
  | one {a : Argument} {before text : List Char} (hb : Blanks before) (ht : a.Written text) :
      WrittenArguments [a] (before ++ text)
  | cons {a : Argument} {as : List Argument} {before text after rest : List Char}
      (hb : Blanks before) (ht : a.Written text) (ha : Blanks after)
      (hr : WrittenArguments as rest) :
      WrittenArguments (a :: as) (before ++ text ++ after ++ ',' :: rest)

def Directive.word : Directive → List Char
  | instruction i => i.mnemonic.toList
  | data => ['D', 'B']

/-- A command: its word in any case and, behind a blank, its arguments. -/
inductive Command.Written (c : Command) : List Char → Prop
  | bare {word : List Char} (hw : word.map Char.toUpper = c.directive.word)
      (ha : c.arguments = []) : c.Written word
  | arguments {word rest : List Char} {gap : Char} (hw : word.map Char.toUpper = c.directive.word)
      (hg : Blanks [gap]) (ha : WrittenArguments c.arguments rest) : c.Written (word ++ gap :: rest)

inductive WrittenLabels : List (List Char) → List Char → Prop
  | nil : WrittenLabels [] []
  | cons {name : List Char} {names : List (List Char)} {before after rest : List Char}
      (hb : Blanks before) (ha : Blanks after) (hr : WrittenLabels names rest) :
      WrittenLabels (name :: names) (before ++ name ++ after ++ ':' :: rest)

inductive Comment : List Char → Prop
  | none : Comment []
  | some {text : List Char} (ht : '\n' ∉ text) : Comment (';' :: text)

inductive Line.Written : Line → List Char → Prop
  | bare {labels : List (List Char)} {front after comment : List Char}
      (hl : WrittenLabels labels front) (ha : Blanks after) (hc : Comment comment) :
      Written ⟨labels, none⟩ (front ++ after ++ comment)
  | command {labels : List (List Char)} {c : Command} {front before text after comment : List Char}
      (hl : WrittenLabels labels front) (hb : Blanks before) (ht : c.Written text)
      (ha : Blanks after) (hc : Comment comment) :
      Written ⟨labels, some c⟩ (front ++ (before ++ text ++ after) ++ comment)

inductive LineEnd : List Char → Prop
  | feed : LineEnd ['\n']
  | returnFeed : LineEnd ['\r', '\n']

theorem LineEnd.lines {P : List Char → Prop} (hn : ∀ text, P text → '\n' ∉ text)
    (hr : ∀ text, P text → P (text ++ ['\r'])) {text finish : List Char} (he : LineEnd finish)
    (h : P text) (rest : List Char) :
    ∃ line, P line ∧ lines (text ++ finish ++ rest) = line :: Text.lines rest := by
  cases he with
  | feed =>
    refine ⟨text, h, ?_⟩
    rw [List.append_assoc]
    exact pieces_append_cons (hn _ h) rest
  | returnFeed =>
    refine ⟨text ++ ['\r'], hr _ h, ?_⟩
    have hs : text ++ ['\r', '\n'] ++ rest = text ++ ['\r'] ++ '\n' :: rest := by simp
    rw [hs]
    exact pieces_append_cons (hn _ (hr _ h)) rest

/-- A program: its lines in order, with empty lines among them. The last line may have no end. -/
inductive Program.Written : Program → List Char → Prop
  | empty {text : List Char} (ht : Line.Written ⟨[], none⟩ text) : Written [] text
  | last {line : Line} {text : List Char} (ht : line.Written text) : Written [line] text
  | skip {p : Program} {text finish rest : List Char} (ht : Line.Written ⟨[], none⟩ text)
      (he : LineEnd finish) (hr : Written p rest) : Written p (text ++ finish ++ rest)
  | line {line : Line} {p : Program} {text finish rest : List Char} (ht : line.Written text)
      (he : LineEnd finish) (hr : Written p rest) : Written (line :: p) (text ++ finish ++ rest)

end ByteMachine.Assembly
