import ByteMachine.Text.Pieces

namespace ByteMachine.CommandLine

open Text

/-- The last component of a path; a path that ends in dots for directories has none. -/
def fileName? (path : List Char) : Option (List Char) :=
  match ((pieces '/' path).filter fun c ↦ c ≠ [] ∧ c ≠ ['.']).getLast? with
  | some ['.', '.'] => none
  | name => name

/-- What stands behind the last dot of a file's name, unless that dot is its first character. -/
def extension? (path : List Char) : Option (List Char) := do
  let name ← fileName? path
  let behind := name.reverse.takeWhile (· ≠ '.')
  if behind.length + 1 < name.length then some behind.reverse else none

def isAssemblyPath (path : String) : Bool :=
  extension? path.toList == some ['a', 's', 'm']

end ByteMachine.CommandLine
