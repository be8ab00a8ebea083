import ResponseModels.Model.Session

/-! The interface of a fragment tree. The fragments in the tree become its bases, and it
declares itself what no base exposes. A composite field that a base exposes is declared once
more when the tree selects more of it than any one base does. -/
namespace ResponseModels

namespace Build

/-- The type under all lists of a field's declared type. -/
def innermostType? (task : Task) (merged : MergedField) : Option SchemaType :=
  task.schema.type? merged.field.annotation.innermost.name

/-- The declaration of a field. What is selected beneath a composite field is asked for; beneath
any other field nothing may be selected. -/
def fieldModel (task : Task) (merged : MergedField) (overridden : List MergedField) :
    Build FieldModel := do
  let typeName := merged.field.annotation.innermost.name
  let target ← match innermostType? task merged with
    | none => throw (.inconsistentCases typeName merged.path)
    | some type =>
      if type.isComposite then
        FieldTarget.composite <$> requestField task merged type overridden
      else if merged.nodes.any (!·.selections.isEmpty) then
        throw (.notComposite typeName merged.path)
      else pure (.leaf type.kind typeName)
  return ⟨merged.field.name, target, merged.responseKey, merged.field.annotation⟩

/-- Interfaces without those whose name occurred before. -/
def distinctByName (models : List InterfaceModel) : List InterfaceModel :=
  models.foldl (fun all model => if all.any (·.name == model.name) then all else all ++ [model]) []

/-- Is a composite field that a base exposes to be declared once more? It is unless one subtree
already has all nodes that are merged here. -/
def isRedeclared (task : Task) (merged : MergedField) (overridden : List MergedField) : Bool :=
  !overridden.any (·.locations == merged.locations) &&
    ((innermostType? task merged).map SchemaType.isComposite).getD false

/-- The declarations that an interface with the given bases makes for its fields. Each base comes
with the fields of its subtree. -/
def declareFields (task : Task) (bases : List (InterfaceModel × List MergedField)) :
    List MergedField → Build (List FieldModel)
  | [] => return []
  | merged :: rest => do
    if bases.all fun base => !base.1.fieldNames.contains merged.responseKey then
      let field ← fieldModel task merged []
      return field :: (← declareFields task bases rest)
    else
      let overridden := bases.filterMap fun base =>
        base.2.find? (·.responseKey == merged.responseKey)
      if isRedeclared task merged overridden then
        let field ← fieldModel task merged overridden
        return field :: (← declareFields task bases rest)
      else declareFields task bases rest

/-- Make the interface of a tree from its bases, and keep it. -/
def assemble (task : Task) (path : ModelPath) (tree : FragmentTree)
    (bases : List (InterfaceModel × List MergedField)) : Build InterfaceModel := do
  let merged ← ofExcept (task.treeFields path tree)
  let fields ← declareFields task bases merged
  let name ← requestName tree.key (task.interfaceName tree.name)
  let model :=
    InterfaceModel.mk fields tree.condition.name (distinctByName (bases.map Prod.fst)) name
  modify (·.addInterface tree.key model)
  return model

mutual

/-- The interface of a tree. The same tree has the same interface every time. -/
def synthesize (task : Task) (path : ModelPath) : FragmentTree → Build InterfaceModel
  | .node kind origin name condition selections children => do
    let tree := FragmentTree.node kind origin name condition selections children
    match (← get).interface? tree.key with
    | some model => return model
    | none => assemble task path tree (← synthesizeEach task path children)

/-- The interface of each tree, with the fields of the tree. -/
def synthesizeEach (task : Task) (path : ModelPath) :
    List FragmentTree → Build (List (InterfaceModel × List MergedField))
  | [] => return []
  | tree :: rest => do
    let model ← synthesize task path tree
    let fields ← ofExcept (task.treeFields path tree)
    return (model, fields) :: (← synthesizeEach task path rest)

end

end Build

end ResponseModels
