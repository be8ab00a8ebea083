import ResponseModels.Model.Interface
import ResponseModels.Selection.Cases

/-! The models of one requested selection set: the interface of its value, a class for every
type case, and the result parser that tells the classes apart. -/
namespace ResponseModels

/-- The interface that the value is typed by, and its parser. -/
structure SelectedModel where
  parser : ParserModel
  returnType : InterfaceModel
  deriving DecidableEq, Repr

namespace Build

/-- The interfaces that a class implements for the fragments that its type case has beyond the
return type. One is left out when it does not apply to all types that the class stands for. -/
def extraInterfaces (task : Task) (path : ModelPath) (represented : List SchemaType) :
    List FragmentTree → Build (List InterfaceModel)
  | [] => return []
  | tree :: rest => do
    if represented.all (task.schema.applies tree.condition ·) then
      let model ← synthesize task path tree
      return model :: (← extraInterfaces task path represented rest)
    else extraInterfaces task path represented rest

/-- The class of a type case, standing for the represented types. -/
def caseClass (task : Task) (request : Request) (returnType : InterfaceModel) (case : Collected)
    (represented : List SchemaType) (type proposed : String) : Build ClassModel := do
  let whole := FragmentTree.node .synthetic (.typeCase case.type.name request.locations)
    case.type.name case.type case.selections case.fragments
  let extras := (whole.hoist case.type.name).extras request.returnTree.allKeys
  let more ← extraInterfaces task request.path represented extras
  let name ← requestName (.leaf (.modelClass type request.locations)) proposed
  let model : ClassModel := ⟨type, distinctByName (returnType :: more), name⟩
  register (.class model)
  return model

/-- The parser of a request. -/
def resultParser (task : Task) (request : Request) (returnType : InterfaceModel)
    (classes : List ClassModel) (discriminators : OrderedMap String) : Build SelectedModel := do
  let name ← requestName (.leaf (.resultParser request.locations))
    (request.modelName ++ task.config.parserSuffix)
  let parser : ParserModel :=
    ⟨classes, discriminators, name, request.path, returnType, request.source⟩
  register (.parser parser)
  return ⟨parser, returnType⟩

/-- The models of a selection set on an object type, which has one case. -/
def modelObject (task : Task) (request : Request) (cases : List Collected) :
    Build SelectedModel := do
  match cases with
  | [case] =>
    let returnType ← synthesize task request.path request.returnTree
    let type := case.type.name
    let model ← caseClass task request returnType case [case.type] type request.modelName
    resultParser task request returnType [model] ⟨[(type, model.name)]⟩
  | _ => throw (.inconsistentCases request.declared.name request.path)

/-- A class for each case, named after the type of the case. -/
def caseClasses (task : Task) (request : Request) (returnType : InterfaceModel) :
    List Collected → Build (List (String × ClassModel))
  | [] => return []
  | case :: rest => do
    let type := case.type.name
    let model ← caseClass task request returnType case [case.type] type type
    return (type, model) :: (← caseClasses task request returnType rest)

/-- The models of a selection set on an interface or union. One case that is left after
collapsing has a class that stands for all possible types. -/
def modelAbstract (task : Task) (request : Request) (cases : List Collected) :
    Build SelectedModel := do
  let returnType ← synthesize task request.path request.returnTree
  let possible := cases.map Collected.type
  match if task.config.collapseCases then collapseCases cases else cases with
  | [case] =>
    let type := if possible.length = 1 then case.type.name else request.declared.name
    let model ← caseClass task request returnType case possible type request.modelName
    resultParser task request returnType [model]
      (.ofList (possible.map fun type => (type.name, model.name)))
  | cases =>
    let classes ← caseClasses task request returnType cases
    resultParser task request returnType (classes.map Prod.snd)
      (.ofList (classes.map fun entry => (entry.1, entry.2.name)))

/-- The type cases of a request. -/
def requestCases (task : Task) (request : Request) : Build (List Collected) :=
  ofExcept (task.typeCases request.declared request.selections request.path)

/-- The models of a request, by the kind of its declared type. -/
def model (task : Task) (request : Request) : Build SelectedModel := do
  let cases ← requestCases task request
  match request.declared with
  | .object _ => modelObject task request cases
  | .interface _ => modelAbstract task request cases
  | .union _ => modelAbstract task request cases
  | declared => throw (.notComposite declared.name request.path)

/-- Take up a request. That of an operation also yields the operation's own model. -/
def process (task : Task) (request : Request) : Build Unit := do
  let selected ← model task request
  match request.operation with
  | none => return ()
  | some operation =>
    let name ← requestName (.leaf (.operation operation.location))
      (request.modelName ++ operation.kind.defaultRoot)
    register (.operation {
      kind := operation.kind
      name := name
      parser := selected.parser
      returnType := selected.returnType
      rootType := operation.rootType
      vars := operation.vars })

end Build

end ResponseModels
