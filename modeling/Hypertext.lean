import Hypertext.Attributes.Lemmas
import Hypertext.Attributes.Shelf
import Hypertext.Forest.Lemmas
import Hypertext.Proofs.Acyclicity
import Hypertext.Proofs.Actions
import Hypertext.Proofs.Erasure
import Hypertext.Proofs.Grammar
import Hypertext.Proofs.Growth
import Hypertext.Proofs.Looks
import Hypertext.Proofs.Outcome
import Hypertext.Proofs.Pieces
import Hypertext.Proofs.Plan
import Hypertext.Proofs.Portrait
import Hypertext.Proofs.PrettyPrinting
import Hypertext.Proofs.Rendering
import Hypertext.Proofs.Restoring
import Hypertext.Proofs.RoundTrip
import Hypertext.Proofs.Throughout
import Hypertext.Proofs.Tokens
import Hypertext.Proofs.Unfolding
import Hypertext.Proofs.Verbatim
import Hypertext.Proofs.Visits
import Hypertext.Render.Agreement
import Hypertext.Session.Run
import Hypertext.Proofs.JsonScalars
import Hypertext.Proofs.Sorting
import Hypertext.Proofs.JsonValues
import Hypertext.Proofs.Digits
import Hypertext.Proofs.JsonDepth
import Hypertext.Proofs.JsonRoundTrip
import Hypertext.Proofs.Moments
import Hypertext.Proofs.Pruning
import Hypertext.Proofs.Unwinding
import Hypertext.Proofs.Ownership
import Hypertext.Proofs.Upkeep
import Hypertext.Proofs.Builders
import Hypertext.Proofs.Building
import Hypertext.Proofs.Atomicity
import Hypertext.Proofs.SetAlgebra
import Hypertext.Proofs.Histories
import Hypertext.Proofs.Scanning
import Hypertext.Proofs.Refusals
import Hypertext.Proofs.Divergence
import Hypertext.Proofs.Twins
import Hypertext.Proofs.Stringified
import Hypertext.Proofs.Operations
import Hypertext.Proofs.Invariants
import Hypertext.Proofs.Copying
import Hypertext.Proofs.Bracketing
import Hypertext.Proofs.Declarations
import Hypertext.Proofs.Paths
import Hypertext.Proofs.Rebuilding
import Hypertext.Proofs.Provenance
import Hypertext.Proofs.References
import Hypertext.Proofs.Evolution
import Hypertext.Proofs.Restorations
import Hypertext.Proofs.Faces
import Hypertext.Proofs.Sparing
import Hypertext.Proofs.Commands
import Hypertext.Proofs.Escaping
import Hypertext.Proofs.Marks
import Hypertext.Proofs.Ancestors
import Hypertext.Proofs.Collections
import Hypertext.Proofs.Outlines
import Hypertext.Proofs.Linking
import Hypertext.Proofs.Lines
import Hypertext.Proofs.Patterns
import Hypertext.Proofs.Segments
import Hypertext.Proofs.Appending
import Hypertext.Proofs.Blocks
import Hypertext.Proofs.InlineRuns
import Hypertext.Proofs.Concatenation
import Hypertext.Proofs.Contributions
import Hypertext.Proofs.InPlace
import Hypertext.Proofs.Placements
import Hypertext.Proofs.Endings
import Hypertext.Proofs.Entities
import Hypertext.Proofs.Blindness
import Hypertext.Proofs.Independence
import Hypertext.Proofs.Levels
import Hypertext.Proofs.Colors
