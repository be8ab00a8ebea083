import ResponseModels.Model.Config
import ResponseModels.Model.Graph
import ResponseModels.Model.Names
import ResponseModels.Selection.Flatten
import ResponseModels.Selection.Hoist
import ResponseModels.Text.Basic

/-! The state in which a document is compiled: names, models and interfaces so far, and the
selections that are still to be modelled. A step that fails keeps what it did before. -/
namespace ResponseModels

open GraphQL

/-- What a document is compiled with. -/
structure Task extends Setting where
  config : Config

/-- The name of the model interface for a node of the given name. -/
def Task.interfaceName (task : Task) (name : String) : String := task.config.interfacePrefix ++ name

/-- What is known of the operation whose selection set is requested. -/
structure OperationRequest where
  kind : OperationKind
  location : Location
  rootType : String
  vars : List VariableModel
  deriving DecidableEq, Repr

/-- A selection set to be modelled. What its value is called is settled when the request is
made, everything else when it is taken up. -/
structure Request where
  declared : SchemaType
  modelName : String
  operation : Option OperationRequest
  path : ModelPath
  /-- The selection set at its declared type, looked through to what it passes on to. -/
  returnTree : FragmentTree
  returnTypeName : String
  locations : List Location
  selections : List Selection
  source : ParserSource
  deriving Repr

/-- What compiling has brought so far, and what it still has to do. -/
structure Session where
  names : Names
  /-- The interfaces made so far, by the keys of their fragment trees. -/
  interfaces : List (OriginKey × InterfaceModel)
  /-- The name of the interface of every requested selection set. -/
  requested : List (Origin × String)
  /-- The tree that every requested selection set is typed by. -/
  returnTrees : List (Origin × FragmentTree)
  /-- Requests that wait to be taken up, the oldest first. -/
  pending : List Request
  graph : Graph
  deriving Repr

/-- Steps that may fail, and whose effects up to the failure stay. -/
abbrev Build := ExceptT ModelError (StateM Session)

namespace Session

def initial (names : Names) : Session := ⟨names, [], [], [], [], .empty⟩

def interface? (session : Session) (key : OriginKey) : Option InterfaceModel :=
  session.interfaces.lookup key

def register (session : Session) (model : Model) : Session :=
  { session with graph := session.graph.register model }

/-- Keep an interface for its key, and register it. -/
def addInterface (session : Session) (key : OriginKey) (model : InterfaceModel) : Session :=
  { session with interfaces := (key, model) :: session.interfaces }.register (.interface model)

/-- Note a request under the origin of its selection set, and let it wait. -/
def enqueue (session : Session) (request : Request) : Session :=
  let origin := Origin.selection request.locations
  { session with
    requested := (origin, request.returnTypeName) :: session.requested
    returnTrees := (origin, request.returnTree) :: session.returnTrees
    pending := session.pending ++ [request] }

end Session

namespace Build

/-- Use an outcome that does not depend on the session. -/
def ofExcept {α : Type} (outcome : Except ModelError α) : Build α := MonadExcept.ofExcept outcome

/-- The name of a key. -/
def requestName (key : OriginKey) (proposed : String) : Build String := do
  let (outcome, names) := (← get).names.request key proposed
  modify ({ · with names := names })
  ofExcept outcome

def register (model : Model) : Build Unit := modify (·.register model)

/-- Take the oldest request off the queue. -/
def nextRequest : Build (Option Request) := do
  match (← get).pending with
  | [] => return none
  | request :: rest =>
    modify ({ · with pending := rest })
    return some request

/-- Put trees behind others, leaving out those whose key is already there. -/
def addTrees (trees extra : List FragmentTree) : List FragmentTree :=
  extra.foldl (fun all tree => if all.any (·.key == tree.key) then all else all ++ [tree]) trees

/-- A selection set to be asked for. -/
structure Inquiry where
  declared : SchemaType
  modelName : String
  path : ModelPath
  locations : List Location
  selections : List Selection
  source : ParserSource
  operation : Option OperationRequest
  /-- Trees of selection sets whose models the new one is to extend. -/
  bases : List FragmentTree

/-- Ask for a selection set: collect it at its declared type, settle the tree and the name of
its interface, and let it wait. -/
def request (task : Task) (inquiry : Inquiry) : Build String := do
  let collected ←
    ofExcept (task.collect inquiry.declared inquiry.selections inquiry.path)
  let whole := FragmentTree.node .synthetic (.selection inquiry.locations) inquiry.modelName
    inquiry.declared inquiry.selections (addTrees collected.fragments inquiry.bases)
  let tree := whole.hoist inquiry.declared.name
  let name ← requestName tree.key (task.interfaceName tree.name)
  modify (·.enqueue {
    declared := inquiry.declared
    modelName := inquiry.modelName
    operation := inquiry.operation
    path := inquiry.path
    returnTree := tree
    returnTypeName := name
    locations := inquiry.locations
    selections := inquiry.selections
    source := inquiry.source })
  return name

/-- The name of the interface for what is selected beneath a field, asking for it unless the
very same nodes were asked for before. The model extends those of the overridden fields. -/
def requestField (task : Task) (merged : MergedField) (declared : SchemaType)
    (overridden : List MergedField) : Build String := do
  match (← get).requested.lookup merged.origin with
  | some name => return name
  | none =>
    let trees := (← get).returnTrees
    let bases := overridden.filterMap fun base => trees.lookup base.origin
    request task {
      declared := declared
      modelName := Text.capitalized merged.responseKey
      path := merged.path
      locations := merged.locations
      selections := merged.nested
      source := .field merged.field.name merged.field.parent.name merged.responseKey
      operation := none
      bases := addTrees [] bases }

/-- Ask for the selection set of an operation. -/
def requestOperation (task : Task) (operation : Operation) : Build Unit := do
  let location := task.document.locate operation.position
  let name := operation.name.getD task.config.anonymousName
  let root := (task.schema.root? operation.kind).bind fun root => task.schema.type? root.name
  match root with
  | none => throw (.missingRoot operation.kind name location)
  | some declared =>
    let vars := operation.vars.map fun v =>
      (⟨v.name, .ofTypeExpr (task.document.locate v.position) v.type⟩ : VariableModel)
    let _ ← request task {
      declared := declared
      modelName := Text.capitalized name
      path := .root name
      locations := [location]
      selections := operation.selections
      source := .operation operation.kind name
      operation := some ⟨operation.kind, location, declared.name, vars⟩
      bases := [] }

end Build

end ResponseModels
