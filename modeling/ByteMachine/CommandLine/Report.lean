import ByteMachine.Assembly
import ByteMachine.CommandLine.Options
import ByteMachine.CommandLine.SourcePath
import ByteMachine.Computer.Run
import ByteMachine.Listing

namespace ByteMachine.CommandLine

structure Report where
  status : Nat
  output : String
  diagnostics : List String
  chain : List String

def eventLine (event : Event) : String :=
  String.ofList (event.level.name.toList.rightpad 5 ' ') ++
    s!" [{event.component}] {event.message}"

def profileLines (profile : Profile) : List String :=
  profile.rows.map (fun (mnemonic, count) ↦
    String.ofList (mnemonic.toList.leftpad 4 ' ') ++ s!" {count}") ++ [s!"total {profile.total}"]

/-- The program in a file, or the chain of messages that says why there is none. -/
def loadProgram (options : Options) (file : Except ReadFailure (List Char)) (log : Log) :
    Except (List String) (List UInt8) × Log :=
  if options.assembly || isAssemblyPath options.program then
    match file with
    | .error failure => (.error [failure.message], log)
    | .ok source => ((assemble source).mapError ProgramError.chain, log)
  else
    let (program, log) := Listing.loadFile file log
    (program.mapError ProgramError.chain, log)

def newComputer (options : Options) (log : Log) : Computer :=
  Computer.new
    { stackTop := options.stackTop, stepLimit := options.maxSteps, profiling := options.profile }
    (.lines "" none) log

/-- The computer with the program in its memory, or the report that tells why it could not be
loaded. -/
def prepare (options : Options) (file : Except ReadFailure (List Char)) :
    Except Report Computer :=
  let (program, log) := loadProgram options file { threshold := options.level }
  let failed (chain : List String) : Except Report Computer :=
    .error ⟨1, "", log.events.toList.map eventLine, chain⟩
  match program with
  | .error chain => failed (s!"failed to load program {options.program}" :: chain)
  | .ok program =>
    match (newComputer options log).load program with
    | .error fault => failed [fault.message]
    | .ok computer => .ok computer

def report (outcome : Outcome Nat) : Report :=
  let c := outcome.computer
  let diagnostics := c.log.events.toList.map eventLine ++ (c.profile.map profileLines).getD []
  match outcome.result with
  | .ok _ => ⟨0, c.output.text, diagnostics, []⟩
  | .error fault => ⟨1, c.output.text, diagnostics, ["execution failed", fault.message]⟩

/-- What a computer has printed and told so far, and the computer without it. -/
def release (c : Computer) : String × List String × Computer :=
  (c.output.text, c.log.events.toList.map eventLine,
    { c with output := c.output.drain, log := { c.log with events := #[] } })

/-- Runs the program in a file; `none` if the run never ends. -/
def execute (options : Options) (file : Except ReadFailure (List Char)) : Option Report :=
  match prepare options file with
  | .error report => some report
  | .ok computer => computer.run.map report

end ByteMachine.CommandLine
