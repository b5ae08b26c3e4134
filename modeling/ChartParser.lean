import ChartParser.Chart.Plain
import ChartParser.Forest.Dot
import ChartParser.Grammar.Builder
import ChartParser.Grammar.Examples
import ChartParser.Grammar.Handle
import ChartParser.Grammar.Lint
import ChartParser.Outcome
import ChartParser.Tree.Derivation
import ChartParser.Proofs.Charted
import ChartParser.Proofs.StateSet
import ChartParser.Proofs.Closing
import ChartParser.Proofs.Saturation
import ChartParser.Proofs.Leo
import ChartParser.Proofs.Chart
import ChartParser.Proofs.Recognition
import ChartParser.Proofs.Forest.Supply
import ChartParser.Proofs.Forest.Builder
import ChartParser.Proofs.Forest.Grow
import ChartParser.Proofs.Forest.Walk
import ChartParser.Proofs.Forest.Derivations
import ChartParser.Proofs.Rejection
import ChartParser.Proofs.Expansion
import ChartParser.Proofs.Online
import ChartParser.Proofs.Links
import ChartParser.Checked
import ChartParser.Proofs.Safety
import ChartParser.Proofs.Forest.Safety
import ChartParser.Proofs.Forest.Reachability
import ChartParser.Proofs.Forest.Shape
import ChartParser.Proofs.Forest.Ambiguity
import ChartParser.Proofs.Forest.Recursion
import ChartParser.Proofs.Merging
import ChartParser.Proofs.Validation
import ChartParser.Proofs.Fixpoint
import ChartParser.Proofs.Lint
import ChartParser.Proofs.Shortcuts
import ChartParser.Proofs.Forest.Sums
import ChartParser.Proofs.LeftRecursion
import ChartParser.Proofs.RightRecursion
import ChartParser.Proofs.Forest.Dot
import ChartParser.Proofs.Outline
import ChartParser.Proofs.Chains
import ChartParser.Proofs.History
import ChartParser.Places
import ChartParser.Grammar.Tables
