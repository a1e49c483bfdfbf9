import AlgolMips.Main
import AlgolMips.Suite
import AlgolMips.Proofs.Acceptance
import AlgolMips.Proofs.Arena
import AlgolMips.Proofs.Assembly
import AlgolMips.Proofs.Booleans
import AlgolMips.Proofs.Comparison
import AlgolMips.Proofs.Constants
import AlgolMips.Proofs.Correctness
import AlgolMips.Proofs.Derivation
import AlgolMips.Proofs.Flushing
import AlgolMips.Proofs.GoldenFiles
import AlgolMips.Proofs.GoldenPaths
import AlgolMips.Proofs.Growth
import AlgolMips.Proofs.Inversion
import AlgolMips.Proofs.Labels
import AlgolMips.Proofs.Listing
import AlgolMips.Proofs.OnePass
import AlgolMips.Proofs.Operands
import AlgolMips.Proofs.Overwriting
import AlgolMips.Proofs.Placement
import AlgolMips.Proofs.Plans
import AlgolMips.Proofs.Precedence
import AlgolMips.Proofs.Readback
import AlgolMips.Proofs.Recovery
import AlgolMips.Proofs.Resolution
import AlgolMips.Proofs.Scheduling
import AlgolMips.Proofs.ScopeStack
import AlgolMips.Proofs.Spacing
import AlgolMips.Proofs.Switches
import AlgolMips.Proofs.Underlining
import AlgolMips.Proofs.Variables
import AlgolMips.Proofs.Wrapping
