import ResponseModels.Selection.Tree

/-! Looking through fragment trees: nodes that only pass on to a single fragment, and
fragments that one type case has beyond what all cases share. -/
namespace ResponseModels

namespace FragmentTree

/-- The tree that stands in for a tree at a type. A node that selects no field itself and
holds a single fragment on that type gives way to the fragment. -/
def hoist (type : String) : FragmentTree → FragmentTree
  | .node kind origin name condition selections [child] =>
    if !selections.any GraphQL.Selection.isField && child.condition.name == type then
      child.hoist type
    else .node kind origin name condition selections [child]
  | tree => tree

mutual

/-- The fragments of a type case that are not among the known ones. Whole selection sets are
looked through; a known fragment is left out with everything beneath it. -/
def extras (known : List OriginKey) : FragmentTree → List FragmentTree
  | .node .synthetic _ _ _ _ children => extrasOf known children
  | tree => if known.contains tree.key then [] else [tree]

def extrasOf (known : List OriginKey) : List FragmentTree → List FragmentTree
  | [] => []
  | tree :: rest => extras known tree ++ extrasOf known rest

end

end FragmentTree

end ResponseModels
