import ResponseModels.Document.Basic
import ResponseModels.Model.Error
import ResponseModels.Selection.Tree

/-! Collecting a selection set at one type: fields are merged by response key, through all
fragments that apply to the type, and each applying fragment becomes a node of a tree. What is
selected beneath the fields is left alone. -/
namespace ResponseModels

open GraphQL

/-- What selections are read against. -/
structure Setting where
  schema : Schema
  document : Document

namespace Setting

/-- Put a field node among the fields merged so far, selecting it on `type`. -/
def mergeField (setting : Setting) (type : SchemaType) (path : ModelPath)
    (fields : List MergedField) (node : FieldNode) : Except ModelError (List MergedField) :=
  let location := setting.document.locate node.position
  let key := node.responseKey
  match type.selectable? node.name with
  | none => .error (.unknownField node.name type.name location (path.child key))
  | some field =>
    if fields.any (·.responseKey == key) then
      .ok (fields.map fun merged =>
        if merged.responseKey = key then
          { merged with
            nodes := merged.nodes ++ [node]
            locations := merged.locations ++ [location] }
        else merged)
    else .ok (fields ++ [⟨field, [location], [node], path.child key, key⟩])

/-- The type that a condition names. -/
def conditionType (setting : Setting) (name : String) (fragment : Option String)
    (location : Location) (path : ModelPath) : Except ModelError SchemaType :=
  match setting.schema.type? name with
  | some type => .ok type
  | none => .error (.undefinedCondition name fragment location path)

/-- The fields merged so far, and the fragments taken so far in one selection set. -/
structure Gathered where
  fields : List MergedField
  fragments : List FragmentTree
  deriving Repr

namespace Gathered

/-- Was the fragment of this origin taken before? -/
def hasTaken (gathered : Gathered) (origin : Origin) : Bool :=
  gathered.fragments.any (·.origin == origin)

/-- Take a fragment whose selections were gathered on top of the fields merged before. -/
def take (gathered : Gathered) (kind : FragmentKind) (origin : Origin) (name : String)
    (condition : SchemaType) (selections : List Selection) (inner : Gathered) : Gathered :=
  ⟨inner.fields,
    gathered.fragments ++ [.node kind origin name condition selections inner.fragments]⟩

end Gathered

/-- How the selections of a spread fragment are gathered: the type they are written for, the
selections, and the fields merged so far. -/
abbrev Expand := SchemaType → List Selection → List MergedField → Except ModelError Gathered

mutual

/-- Gather one selection, written in a selection set of the type `scope`, at the type `type`.
A fragment that does not apply, or that the same selection set has taken already, adds
nothing. A fragment without a condition has that of the set it is written in. -/
def gather (setting : Setting) (type : SchemaType) (path : ModelPath) (expand : Expand)
    (scope : SchemaType) (gathered : Gathered) : Selection → Except ModelError Gathered
  | .field position label name selections => do
    let fields ← setting.mergeField type path gathered.fields ⟨position, label, name, selections⟩
    return { gathered with fields := fields }
  | .spread position name => do
    match setting.document.fragment? name with
    | none => throw (.undefinedFragment name (setting.document.locate position) path)
    | some fragment =>
      let location := setting.document.locate fragment.position
      let condition ← setting.conditionType fragment.condition (some fragment.name) location path
      let origin := Origin.namedFragment location fragment.name
      if !setting.schema.applies condition type || gathered.hasTaken origin then return gathered
      let inner ← expand condition fragment.selections gathered.fields
      return gathered.take .named origin fragment.name condition fragment.selections inner
  | .inline position written selections => do
    let location := setting.document.locate position
    let condition ← match written with
      | some name => setting.conditionType name none location path
      | none => pure scope
    let origin := Origin.inlineFragment location condition.name
    if !setting.schema.applies condition type || gathered.hasTaken origin then return gathered
    let inner ← gatherAll setting type path expand condition ⟨gathered.fields, []⟩ selections
    return gathered.take .inline origin condition.name condition selections inner

/-- Gather selections one after the other. -/
def gatherAll (setting : Setting) (type : SchemaType) (path : ModelPath) (expand : Expand)
    (scope : SchemaType) (gathered : Gathered) : List Selection → Except ModelError Gathered
  | [] => .ok gathered
  | selection :: rest => do
    let gathered ← gather setting type path expand scope gathered selection
    gatherAll setting type path expand scope gathered rest

end

/-- Gather the selections of a set, following spreads at most `depth` fragments deep. -/
def gatherWithin (setting : Setting) (type : SchemaType) (path : ModelPath) : Nat → Expand
  | 0 => fun scope selections fields =>
    gatherAll setting type path (fun _ _ fields => .ok ⟨fields, []⟩) scope ⟨fields, []⟩ selections
  | depth + 1 => fun scope selections fields =>
    gatherAll setting type path (gatherWithin setting type path depth) scope ⟨fields, []⟩
      selections

/-- Collect selections at a type, when they are written in a selection set of another type,
for instance that of a field whose value may be of the given type. Fragments spread each other
in no cycle, so there are no more of them inside each other than the document has. -/
def collectIn (setting : Setting) (scope type : SchemaType) (selections : List Selection)
    (path : ModelPath) : Except ModelError Collected := do
  let gathered ← gatherWithin setting type path setting.document.fragments.size scope selections []
  return ⟨type, gathered.fields, gathered.fragments, selections⟩

/-- Collect selections at the type that they are written for. -/
def collect (setting : Setting) (type : SchemaType) (selections : List Selection)
    (path : ModelPath) : Except ModelError Collected :=
  setting.collectIn type type selections path

/-- Merge the field nodes that stand directly in a selection set, leaving out all fragments. -/
def directFields (setting : Setting) (type : SchemaType) (path : ModelPath) :
    List MergedField → List Selection → Except ModelError (List MergedField)
  | fields, [] => .ok fields
  | fields, .field position label name selections :: rest => do
    let fields ← setting.mergeField type path fields ⟨position, label, name, selections⟩
    setting.directFields type path fields rest
  | fields, _ :: rest => setting.directFields type path fields rest

end Setting

end ResponseModels
