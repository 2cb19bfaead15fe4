import Injector.ArgumentPath
import Injector.ClassTable
import Injector.Container.Autowiring
import Injector.Container.Candidates
import Injector.Container.Creation
import Injector.Container.Merging
import Injector.Container.Operations
import Injector.Container.Products
import Injector.Container.Registration
import Injector.Container.State
import Injector.Container.World
import Injector.Conversion
import Injector.Definition.Basic
import Injector.Definition.Merge
import Injector.Failure
import Injector.Number.Binary64
import Injector.Number.Reading
import Injector.Placeholder
import Injector.Proofs.Autowiring.ByType
import Injector.Proofs.Autowiring.Injection
import Injector.Proofs.Autowiring.Selection
import Injector.Proofs.Autowiring.TieBreak
import Injector.Proofs.Creation.EagerSingletons
import Injector.Proofs.Creation.Guard
import Injector.Proofs.Creation.InitializationOrder
import Injector.Proofs.Creation.Processing
import Injector.Proofs.Creation.ProductCache
import Injector.Proofs.Creation.ProductSteps
import Injector.Proofs.Creation.Prototypes
import Injector.Proofs.Creation.Renewal
import Injector.Proofs.Creation.Retry
import Injector.Proofs.Creation.Stability
import Injector.Proofs.Dependence.Circularity
import Injector.Proofs.Dependence.Cycles
import Injector.Proofs.Dependence.Identity
import Injector.Proofs.Dependence.Links
import Injector.Proofs.Dependence.Mirror
import Injector.Proofs.Dependence.Recorded
import Injector.Proofs.Dependence.Search
import Injector.Proofs.Merging.Ancestry
import Injector.Proofs.Merging.Cache
import Injector.Proofs.Merging.Composition
import Injector.Proofs.Merging.Descent
import Injector.Proofs.Merging.Lineage
import Injector.Proofs.Merging.Notes
import Injector.Proofs.Merging.Overlay
import Injector.Proofs.Names.AliasCycles
import Injector.Proofs.Names.Allocation
import Injector.Proofs.Names.Lookup
import Injector.Proofs.Names.NestedNames
import Injector.Proofs.Names.Refusals
import Injector.Proofs.Names.Shadowing
import Injector.Proofs.Placeholders.Defaults
import Injector.Proofs.Placeholders.Expansion
import Injector.Proofs.Placeholders.Leniency
import Injector.Proofs.Placeholders.Templates
import Injector.Proofs.Placeholders.Termination
import Injector.Proofs.Requests.EnoughDepth
import Injector.Proofs.Requests.Frame
import Injector.Proofs.Requests.Preservation
import Injector.Proofs.Requests.Runs
import Injector.Proofs.Requests.Serving
import Injector.Proofs.Requests.StateRelations
import Injector.Proofs.Requests.SuccessfulCalls
import Injector.Proofs.Requests.Termination
import Injector.Proofs.Resolution.Collections
import Injector.Proofs.Resolution.ExplicitNulls
import Injector.Proofs.Resolution.FirstFailure
import Injector.Proofs.Resolution.Leaves
import Injector.Proofs.Resolution.Lessons
import Injector.Proofs.Resolution.Memos
import Injector.Proofs.Resolution.Transparency
import Injector.Proofs.Settings.Roundtrip
import Injector.Proofs.Values.Integers
import Injector.Proofs.Values.Sameness
import Injector.Proofs.Values.Scalars
import Injector.Resolution
import Injector.Settings.Basic
import Injector.Settings.Document
import Injector.Table
import Injector.Text.Blank
import Injector.Text.Listing
import Injector.Text.Marks
import Injector.Text.Unseen
import Injector.Toml.Builtin
import Injector.Toml.Document
import Injector.Toml.Library
import Injector.Toml.Reader
import Injector.Toml.Scalar
import Injector.Value.Basic
import Injector.Value.Equality
import Injector.ValueType
