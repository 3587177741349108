import ByteMachine.Assembly.Statement

namespace ByteMachine.Assembly

open Text

structure Layout where
  statements : Array Statement := #[]
  labels : Labels := []
  size : Nat := 0

namespace Layout

def addLabel (line : Nat) (layout : Layout) (label : List Char) : Except ProgramError Layout :=
  match layout.labels.lookup label with
  | some _ => .error (.duplicateLabel line (String.ofList label))
  | none => .ok { layout with labels := (label, layout.size) :: layout.labels }

def addStatement (layout : Layout) (s : Statement) : Layout :=
  { layout with statements := layout.statements.push s, size := layout.size + s.size }

def addLine (layout : Layout) (line : List Char) (number : Nat) : Except ProgramError Layout := do
  let (labels, text) := splitLine line
  let layout ← labels.foldlM (addLabel number) layout
  match text with
  | [] => return layout
  | text => return layout.addStatement (← Statement.read number text)

def ofSource (source : List Char) : Except ProgramError Layout :=
  ((lines source).zipIdx 1).foldlM (fun layout (line, number) ↦ layout.addLine line number) {}

end Layout

end ByteMachine.Assembly
