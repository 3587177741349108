import ByteMachine.Assembly.Layout

namespace ByteMachine

open Assembly

/-- Machine code to be loaded at address 0. -/
def assemble (source : List Char) : Except ProgramError (List UInt8) := do
  let layout ← Layout.ofSource source
  let encodings ← layout.statements.toList.mapM (·.encode layout.labels)
  let code := encodings.flatten
  if code.length ≤ 256 then return code else .error (.programTooLarge code.length)

end ByteMachine
