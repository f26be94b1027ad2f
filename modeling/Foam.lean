import Foam.Codec.Position
import Foam.Layout.Pattern
import Foam.Proofs.Arena.Copy
import Foam.Proofs.Arena.Exhausted
import Foam.Proofs.Arena.Reachable
import Foam.Proofs.Audit.Absent
import Foam.Proofs.Audit.Assignments
import Foam.Proofs.Audit.Circles
import Foam.Proofs.Audit.Lookup
import Foam.Proofs.Audit.RoundTrip
import Foam.Proofs.Audit.Scoped
import Foam.Proofs.Audit.Selection
import Foam.Proofs.Audit.Sharing
import Foam.Proofs.Codec.Canonical
import Foam.Proofs.Codec.Data
import Foam.Proofs.Codec.Encodable
import Foam.Proofs.Codec.Header
import Foam.Proofs.Codec.InPlace
import Foam.Proofs.Codec.Ordinals
import Foam.Proofs.Codec.Position
import Foam.Proofs.Codec.Settled
import Foam.Proofs.Codec.Unit
import Foam.Proofs.Congruence
import Foam.Proofs.Effects
import Foam.Proofs.Literal.Alike
import Foam.Proofs.Literal.Exact
import Foam.Proofs.SExpr.Fuel
import Foam.Proofs.SExpr.RoundTrip
import Foam.Proofs.Sequence
import Foam.Proofs.Symbols
import Foam.Proofs.TrailingArray
