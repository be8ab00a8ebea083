import ResponseModels.Selection.Hoist
import ResponseModels.Proofs.Selection.Merging

/-! Fragment trees looked at from inside: the subtrees of a tree, the field nodes that they hold,
and what is left of both when a tree gives way to the fragment that it only passes on to. -/
namespace ResponseModels

open GraphQL

/-- The selection that a field node is. -/
def FieldNode.selection (node : FieldNode) : Selection :=
  .field node.position node.label node.name node.selections

theorem FieldNode.selection_inj {node other : FieldNode}
    (h : node.selection = other.selection) : node = other := by
  cases node
  cases other
  simpa [FieldNode.selection] using h

namespace FragmentTree

variable {tree subtree child : FragmentTree} {occurrence : Occurrence}

theorem sizeOf_lt_of_mem_children (h : child ∈ tree.children) : sizeOf child < sizeOf tree := by
  cases tree with
  | node kind origin name condition selections children =>
      have hLess := List.sizeOf_lt_of_mem h
      rw [FragmentTree.node.sizeOf_spec]
      change sizeOf child < sizeOf children at hLess
      omega

/-- Induction over trees: what passes from the children to the node holds of all trees. -/
theorem induct {motive : FragmentTree → Prop}
    (node : ∀ tree, (∀ child ∈ tree.children, motive child) → motive tree)
    (tree : FragmentTree) : motive tree :=
  node tree fun child _ => induct node child
termination_by sizeOf tree
decreasing_by exact sizeOf_lt_of_mem_children ‹_›

theorem eta (tree : FragmentTree) : FragmentTree.node tree.kind tree.origin tree.name
    tree.condition tree.selections tree.children = tree := by
  cases tree
  rfl

theorem keysOf_eq_map (trees : List FragmentTree) : keysOf trees = trees.map key := by
  induction trees with
  | nil => rfl
  | cons tree rest ih => rw [keysOf, List.map_cons, ih]

theorem key_eq (tree : FragmentTree) : tree.key = .node tree.origin (tree.children.map key) := by
  cases tree
  rw [key, keysOf_eq_map]
  rfl

theorem allKeysOf_eq_flatMap (trees : List FragmentTree) :
    allKeysOf trees = trees.flatMap allKeys := by
  induction trees with
  | nil => rfl
  | cons tree rest ih => rw [allKeysOf, List.flatMap_cons, ih]

/-- The first tree is the second or a tree in it, at any depth. -/
inductive Within : FragmentTree → FragmentTree → Prop
  | self (tree : FragmentTree) : Within tree tree
  | inner {tree child subtree : FragmentTree} :
    child ∈ tree.children → Within subtree child → Within subtree tree

theorem within_iff : Within subtree tree ↔
    subtree = tree ∨ ∃ child ∈ tree.children, Within subtree child := by
  constructor
  · intro h
    cases h with
    | self => exact .inl rfl
    | inner hChild hWithin => exact .inr ⟨_, hChild, hWithin⟩
  · rintro (rfl | ⟨child, hChild, hWithin⟩)
    · exact .self _
    · exact .inner hChild hWithin

theorem Within.trans {outer : FragmentTree} (h : Within subtree tree) (h' : Within tree outer) :
    Within subtree outer := by
  induction h' with
  | self => exact h
  | inner hChild _ ih => exact .inner hChild (ih h)

theorem mem_allKeys_iff (tree : FragmentTree) (key : OriginKey) :
    key ∈ tree.allKeys ↔ ∃ subtree, Within subtree tree ∧ subtree.key = key := by
  induction tree using induct with
  | node tree ih =>
      have hKeys : tree.allKeys = tree.key :: tree.children.flatMap allKeys := by
        cases tree
        rw [allKeys, allKeysOf_eq_flatMap]
        rfl
      rw [hKeys, List.mem_cons, List.mem_flatMap]
      constructor
      · rintro (rfl | ⟨child, hChild, hKey⟩)
        · exact ⟨tree, .self _, rfl⟩
        · obtain ⟨subtree, hWithin, hSame⟩ := (ih child hChild).mp hKey
          exact ⟨subtree, .inner hChild hWithin, hSame⟩
      · rintro ⟨subtree, hWithin, rfl⟩
        rcases within_iff.mp hWithin with rfl | ⟨child, hChild, hInner⟩
        · exact .inl rfl
        · exact .inr ⟨child, hChild, (ih child hChild).mpr ⟨subtree, hInner, rfl⟩⟩

/-- A field node stands directly among the tree's own selections. -/
def Selects (tree : FragmentTree) (occurrence : Occurrence) : Prop :=
  occurrence.type = tree.condition ∧ occurrence.node.selection ∈ tree.selections

/-- A field node stands directly among the selections of the tree or of a tree in it. -/
def Holds (tree : FragmentTree) (occurrence : Occurrence) : Prop :=
  ∃ subtree, Within subtree tree ∧ subtree.Selects occurrence

theorem Holds.of_within (h : Within subtree tree) (hHolds : subtree.Holds occurrence) :
    tree.Holds occurrence := by
  obtain ⟨inner, hInner, hSelects⟩ := hHolds
  exact ⟨inner, hInner.trans h, hSelects⟩

theorem holds_iff : tree.Holds occurrence ↔
    tree.Selects occurrence ∨ ∃ child ∈ tree.children, child.Holds occurrence := by
  constructor
  · rintro ⟨subtree, hWithin, hSelects⟩
    rcases within_iff.mp hWithin with rfl | ⟨child, hChild, hInner⟩
    · exact .inl hSelects
    · exact .inr ⟨child, hChild, subtree, hInner, hSelects⟩
  · rintro (hSelects | ⟨child, hChild, hHolds⟩)
    · exact ⟨tree, .self _, hSelects⟩
    · exact hHolds.of_within (.inner hChild (.self _))

/-- The response key of some field node that the tree holds. -/
def Exposes (tree : FragmentTree) (key : String) : Prop :=
  ∃ occurrence, tree.Holds occurrence ∧ occurrence.key = key

theorem exposes_iff {key : String} : tree.Exposes key ↔
    (∃ occurrence, tree.Selects occurrence ∧ occurrence.key = key) ∨
      ∃ child ∈ tree.children, child.Exposes key := by
  constructor
  · rintro ⟨occurrence, hHolds, hKey⟩
    rcases holds_iff.mp hHolds with hSelects | ⟨child, hChild, hInner⟩
    · exact .inl ⟨occurrence, hSelects, hKey⟩
    · exact .inr ⟨child, hChild, occurrence, hInner, hKey⟩
  · rintro (⟨occurrence, hSelects, hKey⟩ | ⟨child, hChild, occurrence, hHolds, hKey⟩)
    · exact ⟨occurrence, holds_iff.mpr (.inl hSelects), hKey⟩
    · exact ⟨occurrence, holds_iff.mpr (.inr ⟨child, hChild, hHolds⟩), hKey⟩

/-- A tree stays as it is, or it gives way to its only child, which is on the type asked for. -/
theorem hoist_cases (type : String) (tree : FragmentTree) :
    tree.hoist type = tree ∨
      ∃ child, tree.children = [child] ∧ tree.hasDirectFields = false ∧
        child.condition.name = type ∧ tree.hoist type = child.hoist type := by
  rw [hoist.eq_def type tree]
  split
  · split
    · rename_i hPasses
      simp only [Bool.and_eq_true, Bool.not_eq_true', beq_iff_eq] at hPasses
      exact .inr ⟨_, rfl, hPasses.1, hPasses.2, rfl⟩
    · exact .inl rfl
  · exact .inl rfl

theorem within_hoist (type : String) (tree : FragmentTree) : Within (tree.hoist type) tree := by
  induction tree using induct with
  | node tree ih =>
      rcases hoist_cases type tree with hSame | ⟨child, hChildren, _, _, hHoist⟩
      · rw [hSame]
        exact .self _
      · have hChild : child ∈ tree.children := hChildren ▸ List.mem_singleton.mpr rfl
        rw [hHoist]
        exact .inner hChild (ih child hChild)

theorem not_selects_of_not_hasDirectFields (h : tree.hasDirectFields = false) :
    ¬ tree.Selects occurrence := by
  rintro ⟨_, hMem⟩
  have hNone := List.any_eq_false.mp h _ hMem
  exact hNone rfl

/-- No field node is lost when a tree gives way. -/
theorem holds_hoist_iff (type : String) (tree : FragmentTree) (occurrence : Occurrence) :
    (tree.hoist type).Holds occurrence ↔ tree.Holds occurrence := by
  induction tree using induct with
  | node tree ih =>
      rcases hoist_cases type tree with hSame | ⟨child, hChildren, hNone, _, hHoist⟩
      · rw [hSame]
      · have hChild : child ∈ tree.children := hChildren ▸ List.mem_singleton.mpr rfl
        rw [hHoist, ih child hChild, @holds_iff tree, hChildren]
        simp [not_selects_of_not_hasDirectFields hNone]

theorem condition_name_hoist (type : String) (tree : FragmentTree)
    (h : tree.condition.name = type) : (tree.hoist type).condition.name = type := by
  induction tree using induct with
  | node tree ih =>
      rcases hoist_cases type tree with hSame | ⟨child, hChildren, _, hCondition, hHoist⟩
      · rwa [hSame]
      · rw [hHoist]
        exact ih child (hChildren ▸ List.mem_singleton.mpr rfl) hCondition

/-- What a tree gave way to stays. -/
theorem hoist_hoist (type : String) (tree : FragmentTree) :
    (tree.hoist type).hoist type = tree.hoist type := by
  induction tree using induct with
  | node tree ih =>
      rcases hoist_cases type tree with hSame | ⟨child, hChildren, _, _, hHoist⟩
      · rw [hSame, hSame]
      · rw [hHoist]
        exact ih child (hChildren ▸ List.mem_singleton.mpr rfl)

/-- A tree that gives way gives way to a tree on the type asked for. -/
theorem condition_name_hoist_of_ne (type : String) (tree : FragmentTree)
    (h : tree.hoist type ≠ tree) : (tree.hoist type).condition.name = type := by
  rcases hoist_cases type tree with hSame | ⟨child, _, _, hCondition, hHoist⟩
  · exact absurd hSame h
  · rw [hHoist]
    exact condition_name_hoist type child hCondition

theorem extrasOf_eq_flatMap (known : List OriginKey) (trees : List FragmentTree) :
    extrasOf known trees = trees.flatMap (extras known) := by
  induction trees with
  | nil => rfl
  | cons tree rest ih => rw [extrasOf, List.flatMap_cons, ih]

/-- A fragment is beyond the known ones exactly if its key is. -/
theorem extras_fragment (known : List OriginKey) (h : tree.kind ≠ .synthetic) :
    tree.extras known = if tree.key ∈ known then [] else [tree] := by
  cases tree with
  | node kind origin name condition selections children =>
      cases kind with
      | synthetic => exact absurd rfl h
      | inline =>
          rw [extras]
          · simp only [List.contains_iff_mem]
          · intro _ _ _ _ _ hSame
            cases hSame
      | named =>
          rw [extras]
          · simp only [List.contains_iff_mem]
          · intro _ _ _ _ _ hSame
            cases hSame

/-- A whole selection set is looked through. -/
theorem extras_synthetic (known : List OriginKey) (h : tree.kind = .synthetic) :
    tree.extras known = tree.children.flatMap (extras known) := by
  cases tree with
  | node kind origin name condition selections children =>
      cases h
      rw [extras, extrasOf_eq_flatMap]
      rfl

end FragmentTree

end ResponseModels
