import ByteMachine.CommandLine.Report

namespace ByteMachine.CommandLine

def failureOf : IO.Error → ReadFailure
  | .noFileOrDirectory _ code details | .interrupted _ code details =>
    .system details code.toNat
  | .permissionDenied _ code details | .inappropriateType _ code details
  | .invalidArgument _ code details | .resourceExhausted _ code details
  | .noSuchThing _ code details => .system details code.toNat
  | .otherError code details | .hardwareFault code details | .illegalOperation code details =>
    .system details code.toNat
  | e => .system (toString e) 5

def readSource (path : String) : IO (Except ReadFailure (List Char)) := do
  try
    match String.fromUTF8? (← (← IO.FS.Handle.mk path .read).readBinToEnd) with
    | some text => return .ok text.toList
    | none => return .error .notUnicode
  catch e => return .error (failureOf e)

def emit (output : String) (diagnostics : List String) : IO Unit := do
  diagnostics.forM fun line ↦ IO.eprintln line
  IO.print output
  (← IO.getStdout).flush

def finish (r : Report) : IO UInt32 := do
  emit r.output r.diagnostics
  unless r.chain = [] do
    IO.eprintln "Error:"
    (r.chain.zipIdx).forM fun (message, depth) ↦ IO.eprintln s!"   {depth}: {message}"
  return UInt32.ofNat r.status

/-- Runs in slices and shows after each what the computer has printed and told. -/
partial def drive (taken : Nat) (c : Computer) : IO Report :=
  match Computer.advance 4096 taken c with
  | .ended outcome => return report outcome
  | .paused taken c => do
    let (output, diagnostics, c) := release c
    emit output diagnostics
    drive taken c

end ByteMachine.CommandLine

open ByteMachine CommandLine

def main (arguments : List String) : IO UInt32 := do
  match Options.read arguments with
  | .error refusal =>
    if refusal.status = 0 then IO.println refusal.message
    else IO.eprintln ("error: " ++ refusal.message)
    return UInt32.ofNat refusal.status
  | .ok options =>
    match prepare options (← readSource options.program) with
    | .error r => finish r
    | .ok c => finish (← drive 0 c.start)
