import WordMachine.CommandLine.Session
import WordMachine.Main
import WordMachine.Proofs.Calls
import WordMachine.Proofs.Coverage
import WordMachine.Proofs.Symbolic
import WordMachine.Proofs.Layout
import WordMachine.Proofs.Lines
import WordMachine.Proofs.Outcome
import WordMachine.Proofs.Encoding
import WordMachine.Proofs.Image
import WordMachine.Proofs.Trapping
import WordMachine.Proofs.Declarations
import WordMachine.Proofs.Persistence
import WordMachine.Proofs.ResolvedAgain
import WordMachine.Proofs.Settings
import WordMachine.Proofs.StepLimit
import WordMachine.Proofs.Reuse
import WordMachine.Proofs.Targets
import WordMachine.Proofs.LinearReadings
import WordMachine.Proofs.Renaming
import WordMachine.Proofs.Reassembly
import WordMachine.Proofs.SymbolTables
import WordMachine.Proofs.RegisterForms
import WordMachine.Proofs.Comparisons
import WordMachine.Proofs.Arithmetic
import WordMachine.Proofs.Concatenation
import WordMachine.Proofs.Lossless
import WordMachine.Proofs.Console
import WordMachine.Proofs.Budgets
import WordMachine.Proofs.LabelNames
import WordMachine.Proofs.CrossReferences
import WordMachine.Proofs.Endings
import WordMachine.Proofs.CoreDumps
import WordMachine.Proofs.ImageFormat
import WordMachine.Proofs.LabelLines
import WordMachine.Proofs.LabelIds
import WordMachine.Proofs.PrefixChecksums
import WordMachine.Proofs.Resources
import WordMachine.Proofs.LastWrites
import WordMachine.Proofs.Operands
