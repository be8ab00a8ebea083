import ResponseModels.Schema.Basic
import ResponseModels.Model.Origin

/-! What collecting a selection set yields: fields merged by response key, and the tree of
the fragments that apply. -/
namespace ResponseModels

open GraphQL

/-- A field node of a document. -/
structure FieldNode where
  position : Position
  label : Option String
  name : String
  selections : List Selection
  deriving Repr

/-- The key of a field in a response: its alias, if it has one. -/
def FieldNode.responseKey (node : FieldNode) : String := node.label.getD node.name

/-- All field nodes under one response key, with the schema's field that the first of them
selects. Nodes and locations run in parallel. -/
structure MergedField where
  field : Field
  locations : List Location
  nodes : List FieldNode
  path : ModelPath
  responseKey : String
  deriving Repr

namespace MergedField

/-- The items of all nodes' selection sets, one after the other. -/
def nested (merged : MergedField) : List Selection := merged.nodes.flatMap FieldNode.selections

/-- The origin of what is selected beneath the field. -/
def origin (merged : MergedField) : Origin := .selection merged.locations

/-- Do two merged fields select the same field through the very same nodes? -/
def sameSelection (a b : MergedField) : Bool :=
  a.field.name == b.field.name && a.locations == b.locations

end MergedField

/-- What a node of a fragment tree stands for. -/
inductive FragmentKind where
  | inline
  | named
  /-- A whole selection set, or one type case of it. -/
  | synthetic
  deriving DecidableEq, Repr

/-- A fragment, or a whole selection set, with the fragments in it that apply. -/
inductive FragmentTree where
  | node (kind : FragmentKind) (origin : Origin) (name : String) (condition : SchemaType)
      (selections : List Selection) (children : List FragmentTree)
  deriving Repr

namespace FragmentTree

def kind : FragmentTree → FragmentKind
  | node kind _ _ _ _ _ => kind

def origin : FragmentTree → Origin
  | node _ origin _ _ _ _ => origin

/-- The name that models of this node are named after. -/
def name : FragmentTree → String
  | node _ _ name _ _ _ => name

/-- The type that the node's selections are written for. -/
def condition : FragmentTree → SchemaType
  | node _ _ _ condition _ _ => condition

def selections : FragmentTree → List Selection
  | node _ _ _ _ selections _ => selections

def children : FragmentTree → List FragmentTree
  | node _ _ _ _ _ children => children

/-- Does the node select any field without the help of a fragment? -/
def hasDirectFields (tree : FragmentTree) : Bool := tree.selections.any Selection.isField

mutual

def key : FragmentTree → OriginKey
  | node _ origin _ _ _ children => .node origin (keysOf children)

/-- The keys of the trees themselves. -/
def keysOf : List FragmentTree → List OriginKey
  | [] => []
  | tree :: rest => tree.key :: keysOf rest

end

mutual

/-- The keys of a tree and of everything in it. -/
def allKeys : FragmentTree → List OriginKey
  | node kind origin name condition selections children =>
    (node kind origin name condition selections children).key :: allKeysOf children

/-- The keys of the trees and of everything in them. -/
def allKeysOf : List FragmentTree → List OriginKey
  | [] => []
  | tree :: rest => tree.allKeys ++ allKeysOf rest

end

end FragmentTree

/-- The outcome of collecting a selection set at one type. -/
structure Collected where
  type : SchemaType
  fields : List MergedField
  fragments : List FragmentTree
  selections : List Selection
  deriving Repr

/-- Do two collections select the same fields through the same nodes, in the same order? -/
def Collected.sameFields (a b : Collected) : Bool :=
  a.fields.length == b.fields.length &&
    (a.fields.zip b.fields).all fun pair => pair.1.sameSelection pair.2

end ResponseModels
