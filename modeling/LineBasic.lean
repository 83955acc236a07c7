import LineBasic.Machine.Steps
import LineBasic.Main
import LineBasic.Session.Replay
import LineBasic.Proofs.Recognition.Line
import LineBasic.Proofs.ExactValue
import LineBasic.Proofs.MachineInvariant
import LineBasic.Proofs.Registers
import LineBasic.Proofs.Isolation
import LineBasic.Proofs.Batches
import LineBasic.Proofs.Writing
import LineBasic.Proofs.Reloading
import LineBasic.Proofs.Waiting
import LineBasic.Proofs.FreshRuns
import LineBasic.Proofs.Numerals
import LineBasic.Proofs.LineOrder
import LineBasic.Proofs.Remarks
import LineBasic.Proofs.Conversations
import LineBasic.Proofs.RunOrigin
import LineBasic.Proofs.FileBytes
import LineBasic.Proofs.ListingHistory
import LineBasic.Proofs.Interruption
import LineBasic.Proofs.AbortedRuns
import LineBasic.Proofs.FailingWrites
import LineBasic.Proofs.ForwardPrograms
import LineBasic.Proofs.StrayInterrupts
import LineBasic.Proofs.UnboundReads
import LineBasic.Proofs.BoundNames
import LineBasic.Proofs.Lexemes
import LineBasic.Proofs.Forests
import LineBasic.Proofs.Outlines
import LineBasic.Proofs.LineClasses
import LineBasic.Proofs.ValueTexts
import LineBasic.Proofs.Recall
import LineBasic.Proofs.FloatingPowers
import LineBasic.Proofs.PowerOverflow
import LineBasic.Proofs.LineSequence
