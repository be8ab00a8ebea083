import ResponseModels.Proofs.Coverage
import ResponseModels.Proofs.Selection.Walking

/-! Hoisting keeps the fields. A tree gives way to a fragment in it through nodes that only pass on,
and stops at the first that does more. Such a node may still have selections besides the one that
its child was taken for, but flattening comes through the child once and meets nothing else. -/
namespace ResponseModels

open GraphQL

namespace FragmentTree

variable {target : String} {tree passed child : FragmentTree}

/-- A node that selects no field itself passes on to its only child, which is on the target. -/
structure PassesTo (target : String) (tree child : FragmentTree) : Prop where
  fieldless : tree.hasDirectFields = false
  children : tree.children = [child]
  condition : child.condition.name = target

theorem PassesTo.mem_children (h : tree.PassesTo target child) : child ∈ tree.children :=
  h.children ▸ List.mem_singleton.mpr rfl

theorem PassesTo.hoist_eq (h : tree.PassesTo target child) :
    tree.hoist target = child.hoist target := by
  obtain ⟨kind, origin, name, condition, selections, children⟩ := tree
  obtain rfl : children = [child] := h.children
  have hNone : selections.any Selection.isField = false := h.fieldless
  rw [hoist, hNone, h.condition]
  simp

theorem hoist_eq_or_passesTo (target : String) (tree : FragmentTree) :
    tree.hoist target = tree ∨
      ∃ child, tree.PassesTo target child ∧ tree.hoist target = child.hoist target := by
  refine (hoist_cases target tree).imp_right ?_
  rintro ⟨child, hChildren, hNone, hCondition, hHoist⟩
  exact ⟨child, ⟨hNone, hChildren, hCondition⟩, hHoist⟩

theorem Within.sizeOf_le (h : Within passed tree) : sizeOf passed ≤ sizeOf tree := by
  induction h with
  | self => exact Nat.le_refl _
  | inner hChild _ ih => exact Nat.le_trans ih (Nat.le_of_lt (sizeOf_lt_of_mem_children hChild))

/-- Trees that are within each other are the same. -/
theorem Within.antisymm (h : Within passed tree) (h' : Within tree passed) : passed = tree := by
  rcases within_iff.mp h with hSame | ⟨child, hChild, hInner⟩
  · exact hSame
  · have hLess := sizeOf_lt_of_mem_children hChild
    have hBack := (h'.trans hInner).sizeOf_le
    omega

/-- Whatever lies on the way to the fragment that a tree gives way to passes on. -/
theorem passesTo_of_between (hPassed : Within passed tree)
    (hHoisted : Within (tree.hoist target) passed) (hAbove : passed ≠ tree.hoist target) :
    ∃ child, passed.PassesTo target child := by
  induction tree using induct with
  | node tree ih =>
      rcases hoist_eq_or_passesTo target tree with hSame | ⟨child, hPasses, hHoist⟩
      · rw [hSame] at hHoisted hAbove
        exact absurd (hPassed.antisymm hHoisted) hAbove
      · rcases within_iff.mp hPassed with rfl | ⟨inner, hInner, hPassed⟩
        · exact ⟨child, hPasses⟩
        · obtain rfl : inner = child := by simpa [hPasses.children] using hInner
          rw [hHoist] at hHoisted hAbove
          exact ih inner hInner hPassed hHoisted hAbove

/-- The fragment that a tree gives way to does not pass on: if it did, it would have given way to
its child, which is smaller. -/
theorem not_passesTo_hoist (target : String) (tree child : FragmentTree) :
    ¬ (tree.hoist target).PassesTo target child := by
  intro hPasses
  have hStays : child.hoist target = tree.hoist target := by
    rw [← hPasses.hoist_eq, hoist_hoist]
  have hLess := sizeOf_lt_of_mem_children hPasses.mem_children
  have hInside := (within_hoist target child).sizeOf_le
  rw [hStays] at hInside
  omega

end FragmentTree

namespace Setting

variable {setting : Setting} {type scope condition : SchemaType} {selections : List Selection}
  {nodes : List FieldNode} {tree child : FragmentTree} {target : String}

theorem ne_field_of_not_isField {selection : Selection} (h : selection.isField = false)
    (node : FieldNode) : selection ≠ node.selection := by
  rintro rfl
  cases h

/-- Selections without a field meet nothing more once the only child has been visited. -/
theorem metAmong_visited (hNone : ∀ selection ∈ selections, selection.isField = false) :
    setting.metAmong condition (setting.metEach [child]) [0] selections = [] := by
  induction selections with
  | nil => rfl
  | cons selection rest ih =>
      obtain ⟨hFirst, hRest⟩ := List.forall_mem_cons.mp hNone
      rw [metAmong_fragment (ne_field_of_not_isField hFirst)]
      cases hLeads : setting.leadsTo selection child.origin <;>
        simpa [List.findIdx?_cons, hLeads] using ih hRest

/-- Selections without a field, one of which leads to the only child, meet what the child does. -/
theorem metAmong_only_child (hNone : ∀ selection ∈ selections, selection.isField = false)
    (hSome : ∃ selection ∈ selections, setting.leadsTo selection child.origin = true) :
    setting.metAmong condition (setting.metEach [child]) [] selections = setting.met child := by
  induction selections with
  | nil => simp at hSome
  | cons selection rest ih =>
      obtain ⟨hFirst, hRest⟩ := List.forall_mem_cons.mp hNone
      rw [metAmong_fragment (ne_field_of_not_isField hFirst)]
      cases hLeads : setting.leadsTo selection child.origin with
      | false => simpa [List.findIdx?_cons, hLeads] using ih hRest (by simpa [hLeads] using hSome)
      | true => simp [List.findIdx?_cons, hLeads, metAmong_visited hRest]

/-- A node that passes on is flattened like its child. That inline fragments share a position does
no harm here, as with a single child no other can be meant. -/
theorem Walks.met_of_passesTo
    (h : setting.Walks type scope [] tree.selections nodes tree.children)
    (hDocument : setting.document.Accepted) (hPasses : tree.PassesTo target child) :
    setting.met tree = setting.met child := by
  -- the selection that the child was taken for leads to it again
  obtain ⟨selection, hSelection, hOpens, _⟩ :=
    (h.opened hPasses.mem_children).resolve_left List.not_mem_nil
  have hNone : ∀ selection ∈ tree.selections, selection.isField = false := by
    simpa [FragmentTree.hasDirectFields] using hPasses.fieldless
  rw [met_eq tree, hPasses.children]
  exact metAmong_only_child hNone ⟨selection, hSelection, hOpens.leadsTo hDocument⟩

/-- What a tree gives way to is flattened like the tree. The induction goes down the children, each
of which has the trees of a walk of its own. -/
theorem Walks.met_hoist (h : setting.Walks type scope [] tree.selections nodes tree.children)
    (hDocument : setting.document.Accepted) (target : String) :
    setting.met (tree.hoist target) = setting.met tree := by
  induction tree using FragmentTree.induct generalizing scope nodes with
  | node tree ih =>
      rcases tree.hoist_eq_or_passesTo target with hSame | ⟨child, hPasses, hHoist⟩
      · rw [hSame]
      · obtain ⟨_, _, _, _, inner, hInner⟩ :=
          (h.opened hPasses.mem_children).resolve_left List.not_mem_nil
        rw [hHoist, ih child hPasses.mem_children hInner, h.met_of_passesTo hDocument hPasses]

end Setting

/-- A node with the fragments collected from its selections gives way to itself or to a fragment in
it. All that lies above that fragment only passes on, the fragment itself does not and so stays, and
flattening it has the same outcome as flattening the node: in particular the same response keys with
the same locations. -/
theorem hoisting_loses_nothing {setting : Setting} (hDocument : setting.document.Accepted)
    {scope type : SchemaType} {path : ModelPath} {tree : FragmentTree} {collected : Collected}
    (hCollected : setting.collectIn scope type tree.selections path = .ok collected)
    (hChildren : tree.children = collected.fragments) (target : String) :
    FragmentTree.Within (tree.hoist target) tree ∧
    (∀ passed, FragmentTree.Within passed tree →
      FragmentTree.Within (tree.hoist target) passed → passed ≠ tree.hoist target →
        ∃ child, passed.PassesTo target child) ∧
    (∀ child, ¬ (tree.hoist target).PassesTo target child) ∧
    (tree.hoist target).hoist target = tree.hoist target ∧
    ∀ elsewhere, setting.treeFields elsewhere (tree.hoist target) =
      setting.treeFields elsewhere tree := by
  obtain ⟨nodes, hWalk, _⟩ := (Setting.collectIn_eq_ok_iff hDocument).mp hCollected
  rw [← hChildren] at hWalk
  refine ⟨tree.within_hoist target, fun passed => FragmentTree.passesTo_of_between,
    tree.not_passesTo_hoist target, tree.hoist_hoist target, fun elsewhere => ?_⟩
  rw [Setting.treeFields_eq, Setting.treeFields_eq, hWalk.met_hoist hDocument target]

/-- The title of a book, inside of two fragments that only pass on, between fragments for films and
next to a spread that has been followed already. -/
def wrappedTitle : List Selection :=
  [.inline ⟨2, 1⟩ (some "Film") [.field ⟨2, 9⟩ none "title" []],
    .inline ⟨3, 1⟩ (some "Titled")
      [.spread ⟨3, 9⟩ "Heading", .inline ⟨4, 9⟩ (some "Film") [.field ⟨4, 19⟩ none "title" []],
        .spread ⟨5, 9⟩ "Heading"]]

def wrappedTitleTask : Task :=
  (Task.ofItems? hitTypes (hitItems wrappedTitle)).get (by decide +kernel)

/-- All that was found gives way to the title's own fragment, and has its field. -/
theorem wrapped_title_gives_way :
    ∃ scope type collected fields, wrappedTitleTask.schema.type? "Hit" = some scope ∧
      wrappedTitleTask.schema.type? "Book" = some type ∧
      wrappedTitleTask.collectIn scope type wrappedTitle (.root "Query") = .ok collected ∧
      let tree := FragmentTree.node .synthetic (.selection []) "Found" scope wrappedTitle
        collected.fragments
      (tree.hoist "Titled").name = "Heading" ∧ (∃ child, tree.PassesTo "Titled" child) ∧
        wrappedTitleTask.treeFields (.root "Found") tree = .ok fields ∧
        wrappedTitleTask.treeFields (.root "Found") (tree.hoist "Titled") = .ok fields ∧
        fields.map (fun merged => (merged.responseKey, merged.locations.length)) =
          [("title", 1)] := by
  have hStart : Startable wrappedTitleTask (.initial 9) wrappedTitleTask.document.operations :=
    .ofItems (Option.some_get _).symm (by decide +kernel) 9
  have hRun : ((wrappedTitleTask.schema.type? "Hit").bind fun scope =>
      (wrappedTitleTask.schema.type? "Book").bind fun type =>
        (wrappedTitleTask.collectIn scope type wrappedTitle
          (.root "Query")).toOption.bind fun collected =>
            (wrappedTitleTask.treeFields (.root "Found") (.node .synthetic (.selection []) "Found"
              scope wrappedTitle collected.fragments)).toOption.map fun fields =>
                ((FragmentTree.hoist "Titled" (.node .synthetic (.selection []) "Found" scope
                    wrappedTitle collected.fragments)).name,
                  fields.map fun merged => (merged.responseKey, merged.locations.length))) =
      some ("Heading", [("title", 1)]) := by
    decide +kernel
  obtain ⟨scope, hScope, hRun⟩ := Option.bind_eq_some_iff.mp hRun
  obtain ⟨type, hType, hRun⟩ := Option.bind_eq_some_iff.mp hRun
  obtain ⟨collected, hCollected, hRun⟩ := Option.bind_eq_some_iff.mp hRun
  obtain ⟨fields, hFields, hSeen⟩ := Option.map_eq_some_iff.mp hRun
  rw [Outcome.toOption_eq_some_iff] at hCollected hFields
  obtain ⟨hName, hTitle⟩ := Prod.mk.inj hSeen
  let tree := FragmentTree.node .synthetic (.selection []) "Found" scope wrappedTitle
    collected.fragments
  have hCollected : wrappedTitleTask.collectIn scope type tree.selections (.root "Query") =
    .ok collected := hCollected
  obtain ⟨hWithin, hPassed, _, _, hSame⟩ :=
    hoisting_loses_nothing hStart.setting.document hCollected rfl "Titled"
  have hAbove : tree ≠ tree.hoist "Titled" := by
    intro hStays
    have hFound : "Found" = "Heading" := (congrArg FragmentTree.name hStays).trans hName
    exact absurd hFound (by decide)
  exact ⟨scope, type, collected, fields, hScope, hType, hCollected, hName,
    hPassed tree (.self _) hWithin hAbove, hFields, (hSame _).trans hFields, hTitle⟩

end ResponseModels
