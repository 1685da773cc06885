import Midend.Main
import Midend.Proofs.Cache.Histories
import Midend.Proofs.Cli.CacheTransparency
import Midend.Proofs.Cli.CommandReport
import Midend.Proofs.Command.RefusedCalls
import Midend.Proofs.Config.RoundLimit
import Midend.Proofs.Flow.LeastSolution
import Midend.Proofs.Flow.Reachability
import Midend.Proofs.Pass.ConstPropCollapse
import Midend.Proofs.Pass.Counters
import Midend.Proofs.Pass.FoldedTypes
import Midend.Proofs.Pass.Locality
import Midend.Proofs.Pass.PeepholeCursor
import Midend.Proofs.Pass.Sweep
import Midend.Proofs.Program.Folding
import Midend.Proofs.Scope.Descriptions
import Midend.Proofs.Scope.Visibility
import Midend.Proofs.Source.ErrorPlaces
import Midend.Proofs.Source.RoundTrip
