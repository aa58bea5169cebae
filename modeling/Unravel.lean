import Unravel.Proofs.Pool.Settled
import Unravel.Proofs.Pass.Linkage
import Unravel.Proofs.Pass.Atomic
import Unravel.Proofs.Challenge.Taxonomy
import Unravel.Proofs.Challenge.Assignments
import Unravel.Proofs.Members.Folding
import Unravel.Proofs.Challenge.Serialised
import Unravel.Proofs.Grammar.Leaves
import Unravel.Proofs.Grammar.RoundTrip
import Unravel.Proofs.Pool.Static
import Unravel.Proofs.Scope.Parameters
import Unravel.Proofs.Value.Numeric
import Unravel.Proofs.Value.Strings
import Unravel.Proofs.Value.Equality
import Unravel.Proofs.Value.Words
import Unravel.Proofs.Grammar.Holes
import Unravel.Proofs.Fold.Again
import Unravel.Proofs.Syntax.BottomUp
import Unravel.Proofs.Alias.Reported
import Unravel.Proofs.Double.Extremes
import Unravel.Proofs.Pool.Requests
