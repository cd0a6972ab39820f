import ByteMachine.FileSystem
import ByteMachine.Main
import ByteMachine.Proofs.Transition
import ByteMachine.Proofs.BalancedExecution
import ByteMachine.Proofs.InstructionSet
import ByteMachine.Proofs.BoundedOutput
import ByteMachine.Proofs.StraightLine
import ByteMachine.Proofs.FailureAtomicity
import ByteMachine.Proofs.UnreadBytes
import ByteMachine.Proofs.StackAccounting
import ByteMachine.Proofs.ImageGrammar
import ByteMachine.Proofs.LineEdits
import ByteMachine.Proofs.Layouts
import ByteMachine.Proofs.Iteration
import ByteMachine.Proofs.Endings
import ByteMachine.Proofs.Operations
import ByteMachine.Proofs.FlagsHistory
import ByteMachine.Proofs.Utf8Decoding
import ByteMachine.Proofs.FileReading
import ByteMachine.Proofs.MemoryHistory
import ByteMachine.Proofs.Halting
import ByteMachine.Proofs.RunRecord
import ByteMachine.Proofs.Recurrence
import ByteMachine.Proofs.StandardOutput
import ByteMachine.Proofs.Sessions
import ByteMachine.Proofs.LiveLog
import ByteMachine.Proofs.Verbosity
import ByteMachine.Proofs.LogText
import ByteMachine.Proofs.TraceLog
import ByteMachine.Proofs.StackRing
import ByteMachine.Proofs.Rotation
import ByteMachine.Proofs.RegisterTransfer
import ByteMachine.Proofs.ExactArithmetic
import ByteMachine.Proofs.PrintedValues
import ByteMachine.Proofs.SteeringRuns
