import Lcpl.Main
import Lcpl.Proofs.Term.Elaborate
import Lcpl.Proofs.Arena.Reads
import Lcpl.Proofs.Lockstep
import Lcpl.Proofs.Body.Visiting
import Lcpl.Proofs.Body.Simulation
import Lcpl.Proofs.Body.Refinement
import Lcpl.Proofs.Ensures
import Lcpl.Proofs.Registry.Coherent
import Lcpl.Proofs.Term.Typing
import Lcpl.Proofs.Term.Sound
import Lcpl.Proofs.Term.Idempotent
import Lcpl.Proofs.Registry.Extension
import Lcpl.Proofs.Analysis.Declarations
import Lcpl.Proofs.Body.Root
import Lcpl.Proofs.Analysis.Features
import Lcpl.Proofs.Tree.Forest
import Lcpl.Proofs.Analysis.Phases
import Lcpl.Proofs.Analysis.Accepted
import Lcpl.Proofs.Analysis.Resolution
import Lcpl.Proofs.Analysis.Table
import Lcpl.Proofs.Registry.Descent
import Lcpl.Proofs.Arena.Annotates
import Lcpl.Proofs.Body.Annotation
import Lcpl.Proofs.Analysis.Progress
import Lcpl.Proofs.Term.Reports
import Lcpl.Proofs.Analysis.Annotated
import Lcpl.Proofs.Analysis.Failure
import Lcpl.Proofs.Analysis.Trees
import Lcpl.Proofs.Analysis.Redeclare
import Lcpl.Proofs.Analysis.Replay
import Lcpl.Proofs.Analysis.Idempotent
import Lcpl.Proofs.Registry.Inherited
import Lcpl.Proofs.Registry.Range
import Lcpl.Proofs.Analysis.Admission
import Lcpl.Proofs.Analysis.Outline
import Lcpl.Proofs.Analysis.Acceptance
import Lcpl.Proofs.Analysis.Inheritance
import Lcpl.Proofs.Json.Scan
import Lcpl.Proofs.Json.Spelling
import Lcpl.Proofs.Json.Grammar
import Lcpl.Proofs.Json.Written
import Lcpl.Proofs.Json.Field
import Lcpl.Proofs.Format.Canonical
import Lcpl.Proofs.Format.Codec
import Lcpl.Proofs.Body.Blind
import Lcpl.Proofs.Analysis.Blind
import Lcpl.Proofs.Registry.Renaming
import Lcpl.Proofs.Term.Renaming
import Lcpl.Proofs.Analysis.Reordered
import Lcpl.Proofs.Analysis.Annotations
import Lcpl.Proofs.Analysis.Deliveries
import Lcpl.Proofs.Arena.Twins
import Lcpl.Proofs.Analysis.Order
import Lcpl.Proofs.Tree.References
import Lcpl.Proofs.Format.Schema
import Lcpl.Proofs.Format.Fields
import Lcpl.Proofs.Body.Footprint
import Lcpl.Proofs.Analysis.Growth
import Lcpl.Proofs.Analysis.Origins
import Lcpl.Proofs.Format.Extent
import Lcpl.Proofs.Format.Reload
import Lcpl.Proofs.Terminal.Reentry
import Lcpl.Proofs.Body.Balance
import Lcpl.Proofs.Body.Levels
import Lcpl.Proofs.Tree.Worklist
import Lcpl.Proofs.Analysis.Domain
import Lcpl.Proofs.Analysis.Visits
import Lcpl.Proofs.Analysis.Bounded
import Lcpl.Proofs.Tree.Position
import Lcpl.Proofs.Analysis.Scoping
import Lcpl.Proofs.Analysis.Lexical
import Lcpl.Proofs.Registry.Cycles
import Lcpl.Proofs.Analysis.Lineage
import Lcpl.Proofs.Registry.Join
import Lcpl.Proofs.Body.Branches
import Lcpl.Proofs.Analysis.Signatures
import Lcpl.Proofs.Body.History
import Lcpl.Proofs.Registry.Nearest
import Lcpl.Proofs.Analysis.Registration
