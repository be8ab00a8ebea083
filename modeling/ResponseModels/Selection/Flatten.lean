import ResponseModels.Selection.Collect

/-! Flattening a fragment tree back into fields. Only the fragments that the tree holds are
followed, and each field is looked up on the condition of the node that selects it. -/
namespace ResponseModels

open GraphQL

namespace Setting

/-- How the fields of a subtree are merged into those found before. -/
abbrev Merge := List MergedField → Except ModelError (List MergedField)

/-- Which of the subtrees a fragment selection leads to: for a spread the first of that
fragment, for an inline fragment the first of that place. -/
def subtreeIndex? (setting : Setting) (subtrees : List (Origin × Merge)) :
    Selection → Option Nat
  | .field .. => none
  | .spread _ fragment =>
    subtrees.findIdx? fun subtree =>
      match subtree.1 with
      | .namedFragment _ name => name == fragment
      | _ => false
  | .inline position _ _ =>
    subtrees.findIdx? fun subtree =>
      match subtree.1 with
      | .inlineFragment location _ => location == setting.document.locate position
      | _ => false

/-- Merge the fields of selections on `condition`, following each subtree once. -/
def flattenSelections (setting : Setting) (path : ModelPath) (condition : SchemaType)
    (subtrees : List (Origin × Merge)) :
    List Nat → List MergedField → List Selection → Except ModelError (List MergedField)
  | _, fields, [] => .ok fields
  | visited, fields, .field position label name selections :: rest => do
    let fields ← setting.mergeField condition path fields ⟨position, label, name, selections⟩
    setting.flattenSelections path condition subtrees visited fields rest
  | visited, fields, selection :: rest =>
    match setting.subtreeIndex? subtrees selection with
    | none => setting.flattenSelections path condition subtrees visited fields rest
    | some index =>
      if visited.contains index then
        setting.flattenSelections path condition subtrees visited fields rest
      else
        match subtrees[index]? with
        | none => setting.flattenSelections path condition subtrees visited fields rest
        | some (_, merge) => do
          let fields ← merge fields
          setting.flattenSelections path condition subtrees (index :: visited) fields rest

mutual

/-- Merge the fields of a tree into those found before. -/
def flattenInto (setting : Setting) (path : ModelPath) : FragmentTree → Merge
  | .node _ _ _ condition selections children => fun fields =>
    setting.flattenSelections path condition (flattenEach setting path children) [] fields
      selections

/-- Each subtree's origin with the way to merge its fields. -/
def flattenEach (setting : Setting) (path : ModelPath) :
    List FragmentTree → List (Origin × Merge)
  | [] => []
  | tree :: rest => (tree.origin, flattenInto setting path tree) :: flattenEach setting path rest

end

/-- The fields of a fragment tree. -/
def treeFields (setting : Setting) (path : ModelPath) (tree : FragmentTree) :
    Except ModelError (List MergedField) :=
  setting.flattenInto path tree []

end Setting

end ResponseModels
