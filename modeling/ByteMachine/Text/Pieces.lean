namespace ByteMachine.Text

def extend (c : Char) : List (List Char) → List (List Char)
  | [] => [[c]]
  | piece :: rest => (c :: piece) :: rest

def pieces (separator : Char) (text : List Char) : List (List Char) :=
  text.foldr (fun c rest ↦ if c = separator then [] :: rest else extend c rest) []

/-- Lines end at a line feed. A carriage return before it stays, as a blank at the line's end. -/
def lines (text : List Char) : List (List Char) :=
  pieces '\n' text

@[simp]
theorem pieces_nil (separator : Char) : pieces separator [] = [] :=
  rfl

theorem pieces_cons (separator c : Char) (text : List Char) :
    pieces separator (c :: text) =
      if c = separator then [] :: pieces separator text else extend c (pieces separator text) :=
  rfl

end ByteMachine.Text
