import CallGuard.Main
import CallGuard.Proofs.Additions
import CallGuard.Proofs.Agreement
import CallGuard.Proofs.Bracketing
import CallGuard.Proofs.Closers
import CallGuard.Proofs.Convergence
import CallGuard.Proofs.Declarations
import CallGuard.Proofs.Effect
import CallGuard.Proofs.Exactness
import CallGuard.Proofs.Failures
import CallGuard.Proofs.FirstCall
import CallGuard.Proofs.ForwardPass
import CallGuard.Proofs.Idempotence
import CallGuard.Proofs.Independence
import CallGuard.Proofs.InertLines
import CallGuard.Proofs.Joining
import CallGuard.Proofs.LineEndings
import CallGuard.Proofs.Listing
import CallGuard.Proofs.Pairing
import CallGuard.Proofs.Parity
import CallGuard.Proofs.Partition
import CallGuard.Proofs.Reassembly
import CallGuard.Proofs.Residual
import CallGuard.Proofs.Widening
import CallGuard.Proofs.Windows
