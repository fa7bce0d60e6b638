import Lookback.Compiler
import Lookback.Stored.Settings
import Lookback.Time.Text
import Lookback.Proofs.Correspondence
import Lookback.Proofs.Evaluation
import Lookback.Proofs.Construction
import Lookback.Proofs.CalendarBars
import Lookback.Proofs.Causality
import Lookback.Proofs.Constancy
import Lookback.Proofs.Folding
import Lookback.Proofs.Refusals
import Lookback.Proofs.Running
import Lookback.Proofs.SteppingBack
import Lookback.Proofs.Searches
import Lookback.Proofs.Chains
import Lookback.Proofs.Windows
import Lookback.Proofs.Composition
import Lookback.Proofs.Retention
import Lookback.Proofs.Samples
import Lookback.Proofs.NormalForms
import Lookback.Proofs.Accounting
import Lookback.Proofs.HeldSides
import Lookback.Proofs.Observations
import Lookback.Proofs.Tolerance
import Lookback.Proofs.Averages
import Lookback.Proofs.Quantiles
import Lookback.Proofs.Grids
import Lookback.Proofs.Growth
import Lookback.Proofs.Definiteness
import Lookback.Proofs.Extrema
import Lookback.Proofs.Edges
import Lookback.Proofs.Parameters
import Lookback.Proofs.Rewriting
import Lookback.Proofs.Wrappers
import Lookback.Proofs.FoldedKinds
import Lookback.Proofs.KeySources
import Lookback.Proofs.Lookups
