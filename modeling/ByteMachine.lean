import ByteMachine.Main
import ByteMachine.Proofs.Effect
import ByteMachine.Proofs.InstructionTable
import ByteMachine.Proofs.TableAgreement
import ByteMachine.Proofs.Answers
import ByteMachine.Proofs.Atomicity
import ByteMachine.Proofs.Iteration
import ByteMachine.Proofs.Recurrence
import ByteMachine.Proofs.Runs
import ByteMachine.Proofs.AssemblyLanguage
import ByteMachine.Proofs.AssemblyReading
import ByteMachine.Proofs.AssemblyLayout
import ByteMachine.Proofs.AssemblyCode
import ByteMachine.Proofs.AssemblyPasses
import ByteMachine.Proofs.RoundTrip
import ByteMachine.Proofs.StackDiscipline
import ByteMachine.Proofs.Sessions
import ByteMachine.Proofs.GuardedStep
import ByteMachine.Proofs.Safety
import ByteMachine.Proofs.Resumption
import ByteMachine.Proofs.ProfileCounts
import ByteMachine.Proofs.Finality
import ByteMachine.Proofs.AssemblyExecution
import ByteMachine.Proofs.AssemblyFlaws
import ByteMachine.Proofs.AssemblyErrors
import ByteMachine.Proofs.Attempts
import ByteMachine.Proofs.Lockstep
import ByteMachine.Proofs.Observers
import ByteMachine.Proofs.LimitedOutput
import ByteMachine.Proofs.Listings
import ByteMachine.Proofs.Profiles
import ByteMachine.Proofs.StraightLine
import ByteMachine.Proofs.OperandSyntax
import ByteMachine.Proofs.Slices
import ByteMachine.Proofs.ProfileLines
import ByteMachine.Proofs.Reports
import ByteMachine.Proofs.FrontEnds
import ByteMachine.Proofs.Decoding
import ByteMachine.Proofs.Rows
import ByteMachine.Proofs.ListingParts
import ByteMachine.Proofs.AssemblyRows
import ByteMachine.Proofs.Relocation
import ByteMachine.Proofs.LineParts
import ByteMachine.Proofs.MnemonicWords
import ByteMachine.Proofs.SourceEdits
import ByteMachine.Proofs.ControlTransfers
import ByteMachine.Proofs.RunLogs
import ByteMachine.Proofs.ProfileRows
import ByteMachine.Proofs.MemoryAccesses
import ByteMachine.Proofs.ByteNumerals
import ByteMachine.Proofs.TraceLines
