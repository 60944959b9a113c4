import LineBasic.Expr.Printer
import LineBasic.Machine.Session
import LineBasic.Main
import LineBasic.Proofs.Readers
import LineBasic.Terminal.Directory
import LineBasic.Terminal.Options
import LineBasic.Terminal.Report
import LineBasic.Proofs.Layers
import LineBasic.Proofs.Climbing
import LineBasic.Proofs.Effects
import LineBasic.Proofs.Turns
import LineBasic.Proofs.Budgets
import LineBasic.Proofs.Loops
import LineBasic.Proofs.LoopReading
import LineBasic.Proofs.Brackets
import LineBasic.Proofs.Complaints
import LineBasic.Proofs.SoundReading
import LineBasic.Proofs.Renaming
import LineBasic.Proofs.Uniform
import LineBasic.Proofs.OrdinaryErrors
import LineBasic.Proofs.Twins
import LineBasic.Proofs.Lockstep
import LineBasic.Proofs.Sessions
import LineBasic.Proofs.Copies
import LineBasic.Proofs.Snapshots
import LineBasic.Proofs.SnapshotsAlike
import LineBasic.Proofs.Suspension
import LineBasic.Proofs.Renumbering
import LineBasic.Proofs.NestedLines
import LineBasic.Proofs.Calls
import LineBasic.Proofs.WellFormed
import LineBasic.Proofs.Names
import LineBasic.Proofs.Moving
import LineBasic.Proofs.Relocation
import LineBasic.Proofs.Coupling
import LineBasic.Proofs.StatementReading
import LineBasic.Proofs.CoupledCode
import LineBasic.Proofs.LongerText
import LineBasic.Proofs.Seams
import LineBasic.Proofs.Concatenation
import LineBasic.Proofs.Spelling
import LineBasic.Proofs.Printing
import LineBasic.Proofs.ReadBack
import LineBasic.Proofs.Hosts
import LineBasic.Proofs.Polling
import LineBasic.Proofs.Isolation
import LineBasic.Proofs.Rows
import LineBasic.Proofs.LocatedErrors
import LineBasic.Proofs.LeftCalls
import LineBasic.Proofs.FailedLines
import LineBasic.Proofs.Voices
import LineBasic.Proofs.Delivery
import LineBasic.Proofs.LoadedLines
import LineBasic.Proofs.LineScanning
import LineBasic.Proofs.ThinnedText
import LineBasic.Proofs.LoadedPrograms
import LineBasic.Proofs.Reloading
import LineBasic.Proofs.Excerpts
import LineBasic.Proofs.FoldedNames
import LineBasic.Proofs.KeptSnapshots
import LineBasic.Proofs.Remarks
import LineBasic.Proofs.Onward
import LineBasic.Proofs.LabelMarks
import LineBasic.Proofs.WholeNumbers
import LineBasic.Proofs.Elements
import LineBasic.Proofs.Addressing
import LineBasic.Proofs.MapKeys
import LineBasic.Proofs.DeepCopies
import LineBasic.Proofs.Footprints
import LineBasic.Proofs.ElementAccess
import LineBasic.Proofs.LexemePlaces
import LineBasic.Proofs.QuietEvaluation
import LineBasic.Proofs.ExactIntegers
import LineBasic.Proofs.CountingLoops
import LineBasic.Proofs.CompiledSources
import LineBasic.Proofs.Lookahead
import LineBasic.Proofs.LineNumbers
import LineBasic.Proofs.Pictures
import LineBasic.Proofs.Substrings
