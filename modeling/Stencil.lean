import Stencil.Tree.Document
import Stencil.Watch
import Stencil.Proofs.Expression.Precedence
import Stencil.Proofs.Statement.Listing
import Stencil.Proofs.RoundTrip
import Stencil.Proofs.Layout
import Stencil.Proofs.Spans
import Stencil.Proofs.Statement.Errors
import Stencil.Proofs.Shape
import Stencil.Proofs.Statement.Nesting
import Stencil.Proofs.Statement.Acceptance
import Stencil.Proofs.Expression.Places
import Stencil.Proofs.Statement.Places
import Stencil.Proofs.Continuing
import Stencil.Proofs.Statement.Joining
import Stencil.Proofs.Composing
import Stencil.Proofs.Diagnostics
import Stencil.Proofs.Cache.Settling
import Stencil.Proofs.Cache.Coherence
import Stencil.Proofs.Cache.Failing
import Stencil.Proofs.Expression.Accounts
import Stencil.Proofs.Expression.Acceptance
import Stencil.Proofs.Bare
import Stencil.Proofs.Spacing
import Stencil.Proofs.Enclosing
import Stencil.Proofs.Cache.Afresh
import Stencil.Proofs.Cache.Serving
import Stencil.Proofs.Cache.Assets
import Stencil.Proofs.Cache.Watching
import Stencil.Proofs.Document.Decoding
import Stencil.Proofs.Statement.Blocks
import Stencil.Proofs.Stream
import Stencil.Proofs.Verbatim
import Stencil.Proofs.Statement.Stacks
import Stencil.Proofs.Longest
