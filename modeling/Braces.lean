import Braces.Command
import Braces.Main
import Braces.Proofs.Grouping
import Braces.Proofs.WellScoped
import Braces.Proofs.Inference.Steps
import Braces.Proofs.Inference.Turns
import Braces.Proofs.Inference.Widening
import Braces.Proofs.Inference.Rounds
import Braces.Proofs.Absorption
import Braces.Proofs.Inference.Climbing
import Braces.Proofs.Settling
import Braces.Proofs.Syntax.Phrases
import Braces.Proofs.Syntax.Soundness
import Braces.Proofs.Syntax.Completeness
import Braces.Proofs.Recognition
import Braces.Proofs.Agreement
import Braces.Proofs.Printing.Text
import Braces.Proofs.Printing.Pieces
import Braces.Proofs.Printing.Scanning
import Braces.Proofs.Printing.Layout
import Braces.Proofs.Printing.Exprs
import Braces.Proofs.Printing.Stmts
import Braces.Proofs.RoundTrip
import Braces.Proofs.References
import Braces.Proofs.SlotChecks
import Braces.Proofs.IntegerWidth
import Braces.Proofs.Inference.Precedence
import Braces.Proofs.Reordering
import Braces.Proofs.Scanning.Lexemes
import Braces.Proofs.Scanning.Steps
import Braces.Proofs.Partition
import Braces.Proofs.LayoutTokens
import Braces.Proofs.Respelling
import Braces.Proofs.WellShaped
import Braces.Proofs.Resolution
import Braces.Proofs.Inference.Voids
import Braces.Proofs.VoidUse
import Braces.Proofs.Reading.Words
import Braces.Proofs.Lines.Blocks
import Braces.Proofs.Lines.Emission
import Braces.Proofs.Balance
import Braces.Proofs.Running.Machine
import Braces.Proofs.Running.Coupling
import Braces.Proofs.Running.Modules
import Braces.Proofs.Splicing
import Braces.Proofs.Running.Footprint
import Braces.Proofs.Rebinding
import Braces.Proofs.Running.Lists
import Braces.Proofs.Running.Contents
import Braces.Proofs.Stability
import Braces.Proofs.Unpacking.Sentences
import Braces.Proofs.Unpacking.Reading
import Braces.Proofs.Unpacking
import Braces.Proofs.Counting.Headers
import Braces.Proofs.Counting.Texts
import Braces.Proofs.Counting.Passes
import Braces.Proofs.Counting.Emitted
import Braces.Proofs.RangeHeads
import Braces.Proofs.Scanning.Breaks
import Braces.Proofs.Scanning.InStep
import Braces.Proofs.BlankLines
import Braces.Proofs.LineEndings
import Braces.Proofs.Syntax.Predictive
import Braces.Proofs.Lookahead
import Braces.Proofs.Running.Traces
import Braces.Proofs.Updates.Operators
import Braces.Proofs.Updates
import Braces.Proofs.Renaming
import Braces.Proofs.Quoting
import Braces.Proofs.Convergence
import Braces.Proofs.Definitions
import Braces.Proofs.TableRuns
import Braces.Proofs.Progress
import Braces.Proofs.Typing.Rules
