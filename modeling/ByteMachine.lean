import ByteMachine.Console.FileTree
import ByteMachine.Main
import ByteMachine.Proofs.Budget
import ByteMachine.Proofs.Replay
import ByteMachine.Proofs.StackList
import ByteMachine.Proofs.Reassembly
import ByteMachine.Proofs.SnapshotCodec
import ByteMachine.Proofs.Routine
import ByteMachine.Proofs.Verdict
import ByteMachine.Proofs.LineGrammar
import ByteMachine.Proofs.SourceWords
import ByteMachine.Proofs.Image
import ByteMachine.Proofs.Commands
import ByteMachine.Proofs.Exit
import ByteMachine.Proofs.StatusFlags
import ByteMachine.Proofs.LatestCycles
import ByteMachine.Proofs.Observation
import ByteMachine.Proofs.SourceLines
import ByteMachine.Proofs.Computation
import ByteMachine.Proofs.ProgramBytes
import ByteMachine.Proofs.Refusal
import ByteMachine.Proofs.StraightRun
import ByteMachine.Proofs.ExactArithmetic
import ByteMachine.Proofs.WordCodec
import ByteMachine.Proofs.FormattedText
import ByteMachine.Proofs.Numerals
import ByteMachine.Proofs.TokenEnds
import ByteMachine.Proofs.Respelling
import ByteMachine.Proofs.ImmediateValues
import ByteMachine.Proofs.Listing
import ByteMachine.Proofs.MemoryDump
import ByteMachine.Proofs.OperandLists
import ByteMachine.Proofs.AddressText
import ByteMachine.Proofs.LongestMatch
