import ResponseModels.Data.OrderedMap
import ResponseModels.Source.Location
import ResponseModels.Text.Basic
import ResponseModels.GraphQL.Executable
import ResponseModels.GraphQL.TypeSystem
import ResponseModels.Schema.Basic
import ResponseModels.Schema.Draft
import ResponseModels.Schema.Serial
import ResponseModels.Document.Basic
import ResponseModels.Model.Config
import ResponseModels.Model.Names
import ResponseModels.Selection.Flatten
import ResponseModels.Selection.Cases
import ResponseModels.Selection.Hoist
import ResponseModels.Model.Graph
import ResponseModels.Model.Compile
import ResponseModels.Model.Serial
import ResponseModels.Proofs.Data.Outcome
import ResponseModels.Proofs.Data.Association
import ResponseModels.Proofs.Model.Steps
import ResponseModels.Proofs.Model.Composed
import ResponseModels.Proofs.Model.Names
import ResponseModels.Proofs.Schema.Possible
import ResponseModels.Proofs.Document.Searching
import ResponseModels.Proofs.Document.Acyclic
import ResponseModels.Proofs.Document.Reached
import ResponseModels.Proofs.Selection.Merging
import ResponseModels.Proofs.Selection.Trees
import ResponseModels.Proofs.Selection.Growth
import ResponseModels.Proofs.Selection.Collecting
import ResponseModels.Proofs.Selection.Flattening
import ResponseModels.Proofs.Run.Requests
import ResponseModels.Proofs.Model.Graph
import ResponseModels.Proofs.Run.Sessions
import ResponseModels.Proofs.Run.Asking
import ResponseModels.Proofs.Run.Synthesis
import ResponseModels.Proofs.Run.Modelling
import ResponseModels.Proofs.Run.Stages
import ResponseModels.Proofs.Selection.Descent
import ResponseModels.Proofs.Run.Progress
import ResponseModels.Proofs.Run.Rounds
import ResponseModels.Proofs.Run.Uniform
import ResponseModels.Proofs.Coverage
import ResponseModels.Proofs.FieldModels
import ResponseModels.Proofs.Overrides
import ResponseModels.Proofs.Run.Registration
import ResponseModels.Proofs.Discrimination
import ResponseModels.Proofs.Closure
import ResponseModels.Proofs.Selection.Expansion
import ResponseModels.Proofs.Selection.CollectFields
import ResponseModels.Proofs.FieldCollection
import ResponseModels.Proofs.Document.Typing
import ResponseModels.Proofs.Selection.Rejection
import ResponseModels.Proofs.Run.Failures
import ResponseModels.Proofs.UnknownFields
import ResponseModels.Proofs.SpreadCycles
import ResponseModels.Proofs.NamingLaw
import ResponseModels.Proofs.Recompiling
import ResponseModels.Proofs.Schema.Implementing
import ResponseModels.Proofs.Selection.Unfolding
import ResponseModels.Proofs.Run.Worklist
import ResponseModels.Proofs.Run.TreeRecursion
import ResponseModels.Proofs.Termination
import ResponseModels.Proofs.Model.Renaming
import ResponseModels.Proofs.NameIndependence
import ResponseModels.Proofs.SchemaLaws
import ResponseModels.Proofs.Extensions
import ResponseModels.Proofs.DeclaredParts
import ResponseModels.Proofs.PossibleTypes
import ResponseModels.Proofs.SchemaData
import ResponseModels.Proofs.Selection.Confinement
import ResponseModels.Proofs.UnreachedFragments
import ResponseModels.Proofs.Run.Parsers
import ResponseModels.Proofs.BreadthFirst
import ResponseModels.Proofs.Selection.Walking
import ResponseModels.Proofs.Reflattening
import ResponseModels.Proofs.Run.Assembly
import ResponseModels.Proofs.Run.Coherence
import ResponseModels.Proofs.Run.Contexts
import ResponseModels.Proofs.InterfaceCache
import ResponseModels.Proofs.ExposedFields
import ResponseModels.Proofs.Redeclaration
import ResponseModels.Proofs.GraphQL.TypeReading
import ResponseModels.Proofs.AnnotationText
import ResponseModels.Proofs.Registering
import ResponseModels.Proofs.FirstOffence
import ResponseModels.Proofs.Hoisting
import ResponseModels.Proofs.CyclePhases
