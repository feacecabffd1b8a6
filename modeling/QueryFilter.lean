import QueryFilter.Json.Reader
import QueryFilter.Expr.Build
import QueryFilter.Filter.Build
import QueryFilter.Filter.Outline
import QueryFilter.Encoding.Default
import QueryFilter.Log.Compile
import QueryFilter.Proofs.Query
import QueryFilter.Proofs.Reading
import QueryFilter.Proofs.Placement
import QueryFilter.Proofs.Quoted
import QueryFilter.Proofs.Totality
import QueryFilter.Proofs.Storage
import QueryFilter.Proofs.Location
import QueryFilter.Proofs.Stored
import QueryFilter.Proofs.Truth
import QueryFilter.Proofs.Operands
import QueryFilter.Proofs.Meaning
import QueryFilter.Proofs.Membership
import QueryFilter.Proofs.Dotted
import QueryFilter.Proofs.Checked
import QueryFilter.Proofs.Scoped
import QueryFilter.Proofs.Confinement
import QueryFilter.Proofs.Renamed
import QueryFilter.Proofs.Renaming
import QueryFilter.Proofs.Cycles
import QueryFilter.Proofs.Loaded
import QueryFilter.Proofs.Referred
import QueryFilter.Proofs.Typing
import QueryFilter.Proofs.Recursion
import QueryFilter.Proofs.Described
import QueryFilter.Proofs.Written
import QueryFilter.Proofs.Integers
import QueryFilter.Proofs.Documents
import QueryFilter.Proofs.Depth
import QueryFilter.Proofs.Junctions
import QueryFilter.Proofs.Bodies
import QueryFilter.Proofs.Grammar
import QueryFilter.Proofs.Lengths
import QueryFilter.Proofs.Equality
import QueryFilter.Proofs.Folding
import QueryFilter.Proofs.Transcript
import QueryFilter.Proofs.Rounds
import QueryFilter.Proofs.Layouts
import QueryFilter.Proofs.Shapes
import QueryFilter.Proofs.Elements
import QueryFilter.Proofs.Alternatives
import QueryFilter.Proofs.Names
import QueryFilter.Proofs.Patterns
import QueryFilter.Proofs.Defaults
import QueryFilter.Proofs.Unplaced
import QueryFilter.Proofs.Matched
import QueryFilter.Proofs.Reordered
import QueryFilter.Proofs.Refusals
import QueryFilter.Proofs.Outcomes
import QueryFilter.Proofs.Recognition
import QueryFilter.Proofs.Structure
import QueryFilter.Proofs.Registrations
import QueryFilter.Proofs.Ranges
