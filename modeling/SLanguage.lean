import SLanguage.Word
import SLanguage.Variable
import SLanguage.Label
import SLanguage.Call
import SLanguage.Call.Drawing
import SLanguage.Operation
import SLanguage.Instruction
import SLanguage.Tier
import SLanguage.Fault
import SLanguage.LabelTable
import SLanguage.Registry
import SLanguage.CallGraph
import SLanguage.BodyAnalysis
import SLanguage.Cost
import SLanguage.Degree
import SLanguage.Names
import SLanguage.Expansion.Block
import SLanguage.Expansion.Splice
import SLanguage.Expansion.Snapshot
import SLanguage.Expansion
import SLanguage.Frame
import SLanguage.Machine.Bounded
import SLanguage.Machine.Command
import SLanguage.Machine.Step
import SLanguage.Machine.Run
import SLanguage.Text.Blocks
import SLanguage.Text.Escape
import SLanguage.Text.Invisible
import SLanguage.Text.Joined
import SLanguage.Text.Wide
import SLanguage.Text.Columns
import SLanguage.Text.Table
import SLanguage.Listing
import SLanguage.Program
import SLanguage.Program.Check
import SLanguage.Demo
import SLanguage.Main
import SLanguage.Proofs.CallGraph
import SLanguage.Proofs.BodyAnalysis
import SLanguage.Proofs.Cost
import SLanguage.Proofs.ExactCost
import SLanguage.Proofs.WellFormed
import SLanguage.Proofs.LabelTable
import SLanguage.Proofs.Prediction
import SLanguage.Proofs.FreshNames
import SLanguage.Proofs.Templates
import SLanguage.Proofs.Pass
import SLanguage.Proofs.Splice
import SLanguage.Proofs.Blocks
import SLanguage.Proofs.Validity
import SLanguage.Proofs.Degree
import SLanguage.Proofs.Monotone
import SLanguage.Proofs.Effects
import SLanguage.Proofs.Steps
import SLanguage.Proofs.Adequacy
import SLanguage.Proofs.BlockRuns
import SLanguage.Proofs.SpliceRuns
import SLanguage.Proofs.Simulation
import SLanguage.Proofs.Meaning
import SLanguage.Proofs.Provenance
import SLanguage.Proofs.Refinement
import SLanguage.Proofs.Strays
import SLanguage.Proofs.Capture
import SLanguage.Proofs.ExitLabels
import SLanguage.Proofs.Tier
import SLanguage.Proofs.Lockstep
import SLanguage.Proofs.Inputs
import SLanguage.Proofs.Renaming
import SLanguage.Proofs.Nesting
import SLanguage.Proofs.Hygiene
import SLanguage.Proofs.Mirrors
import SLanguage.Proofs.Transparency
import SLanguage.Proofs.Recursion
import SLanguage.Proofs.Unused
import SLanguage.Proofs.Accounting
import SLanguage.Proofs.CallBlock
import SLanguage.Proofs.PlainBlock
import SLanguage.Proofs.Occurrence
import SLanguage.Proofs.Legality
import SLanguage.Proofs.FailedSteps
import SLanguage.Proofs.StoredVariables
import SLanguage.Proofs.NameSupply
import SLanguage.Proofs.LabelBijection
import SLanguage.Proofs.CallText
import SLanguage.Proofs.LevelOrder
import SLanguage.Proofs.Reachability
