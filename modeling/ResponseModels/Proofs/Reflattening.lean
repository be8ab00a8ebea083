import ResponseModels.Proofs.Coverage
import ResponseModels.Proofs.Selection.Walking

/-! Collecting and flattening agree. A node that keeps the fragments collected from its selections
is flattened into the fields that were collected: the same response keys in the same order, each
merged from the same nodes as often as they were met. Which type a field is looked up on makes no
difference to that. -/
namespace ResponseModels

open GraphQL

namespace Setting

variable {setting : Setting} {type scope : SchemaType} {path : ModelPath}
  {selections : List Selection} {nodes : List FieldNode} {trees : List FragmentTree}
  {tree : FragmentTree} {fields : List MergedField}

/-- The response keys of merged fields in order, each with the locations of its nodes. -/
def places (fields : List MergedField) : List (String × List Location) :=
  fields.map fun merged => (merged.responseKey, merged.locations)

/-- The response keys of nodes in the order in which they first come, each with the locations of
its nodes. -/
def placesOf (setting : Setting) (nodes : List FieldNode) : List (String × List Location) :=
  (nodes.map FieldNode.responseKey).eraseDups.map fun key =>
    (key, (nodes.filter (·.responseKey == key)).map (setting.document.locate ·.position))

/-- The nodes alone tell which places are merged. -/
theorem places_of_mergeAll {occurrences : List Occurrence}
    (h : setting.mergeAll path [] occurrences = .ok fields) :
    places fields = setting.placesOf (occurrences.map Occurrence.node) := by
  have hMerged := merged_of_mergeAll h
  have hKeys : fields.map MergedField.responseKey =
      ((occurrences.map Occurrence.node).map FieldNode.responseKey).eraseDups := by
    rw [List.map_map]
    exact keys_mergeAll h List.eraseDups_nil.symm
  rw [placesOf, ← hKeys, places, List.map_map]
  apply List.map_congr_left
  intro merged hMem
  have hFrom := hMerged.each merged hMem
  rw [Function.comp_apply, hFrom.locations, hFrom.nodes, List.filter_map]
  rfl

/-- A node with the trees of a walk over its selections is flattened into the places of the nodes
that the walk meets. -/
theorem Walks.places_treeFields (h : setting.Walks type scope [] tree.selections nodes tree.children)
    (hDocument : setting.document.Accepted) (hApart : setting.InlinesApart tree.selections)
    (hFields : setting.treeFields path tree = .ok fields) :
    places fields = setting.placesOf nodes := by
  rw [treeFields_eq] at hFields
  rw [places_of_mergeAll hFields, h.met hDocument hApart]

theorem places_mergeOn (h : setting.mergeOn type path [] nodes = .ok fields) :
    places fields = setting.placesOf nodes := by
  rw [places_of_mergeAll h, List.map_map]
  exact congrArg setting.placesOf (List.map_id nodes)

/-- Selections that can be walked over are collected without an error, at any path. -/
theorem Walks.collectIn (h : setting.Walks type scope [] selections nodes trees)
    (hDocument : setting.document.Accepted) (path : ModelPath) :
    ∃ collected, setting.collectIn scope type selections path = .ok collected ∧
      collected.fragments = trees ∧ places collected.fields = setting.placesOf nodes := by
  obtain ⟨outcome, hGathers, _⟩ := exists_gathers_of_collectIn hDocument scope type selections path
  obtain ⟨fields, hFields, _⟩ := h.outcome rfl hGathers
  exact ⟨⟨type, fields, trees, selections⟩,
    (collectIn_eq_ok_iff hDocument).mpr ⟨nodes, h, hFields, rfl, rfl⟩, rfl, places_mergeOn hFields⟩

end Setting

/-- Flattening a node whose children were collected from its selections gives the response keys
that were collected, in their order and with their locations. Every node inside the collected
trees is such a node, for the selections of its own and the type of the collection. -/
theorem treeFields_agrees_with_collectIn {setting : Setting}
    (hDocument : setting.document.Accepted) {scope type : SchemaType}
    {selections : List Selection} (hApart : setting.InlinesApart selections) {path : ModelPath}
    {collected : Collected}
    (hCollected : setting.collectIn scope type selections path = .ok collected) :
    (∀ kind origin name condition elsewhere fields,
      setting.treeFields elsewhere
          (.node kind origin name condition selections collected.fragments) = .ok fields →
        Setting.places fields = Setting.places collected.fields) ∧
    ∀ tree ∈ collected.fragments, ∀ node, FragmentTree.Within node tree → ∀ elsewhere,
      ∃ inner, setting.collectIn node.condition type node.selections elsewhere = .ok inner ∧
        inner.fragments = node.children ∧
        ∀ place fields, setting.treeFields place node = .ok fields →
          Setting.places fields = Setting.places inner.fields := by
  obtain ⟨nodes, hWalk, hNodes, _⟩ := (Setting.collectIn_eq_ok_iff hDocument).mp hCollected
  constructor
  · intro kind origin name condition elsewhere fields hFields
    let tree := FragmentTree.node kind origin name condition selections collected.fragments
    have hWalk : setting.Walks type scope [] tree.selections nodes tree.children := hWalk
    rw [hWalk.places_treeFields hDocument hApart hFields, Setting.places_mergeOn hNodes]
  · intro tree hTree node hNode elsewhere
    obtain ⟨hApartInside, met, hInside⟩ := hWalk.within hApart hTree hNode
    obtain ⟨inner, hInner, hChildren, hPlaces⟩ := hInside.collectIn hDocument elsewhere
    refine ⟨inner, hInner, hChildren, fun place fields hFields => ?_⟩
    rw [hInside.places_treeFields hDocument hApartInside hFields, hPlaces]

/-- The title of a hit, once more inside of a fragment without a condition, and a spread that has
been followed already. -/
def repeatedTitle : List Selection :=
  [.spread ⟨2, 1⟩ "Heading", .inline ⟨3, 1⟩ none [.spread ⟨3, 9⟩ "Heading"],
    .spread ⟨4, 1⟩ "Heading", .inline ⟨5, 1⟩ (some "Film") [.field ⟨5, 9⟩ none "title" []]]

def repeatedTitleTask : Task :=
  (Task.ofItems? hitTypes (hitItems repeatedTitle)).get (by decide +kernel)

/-- For a book the title is met twice, in collecting as in flattening. -/
theorem book_title_met_twice :
    ∃ scope type collected fields, repeatedTitleTask.schema.type? "Hit" = some scope ∧
      repeatedTitleTask.schema.type? "Book" = some type ∧
      repeatedTitleTask.collectIn scope type repeatedTitle (.root "Query") = .ok collected ∧
      repeatedTitleTask.treeFields (.root "Found") (.node .synthetic (.selection []) "Found" scope
        repeatedTitle collected.fragments) = .ok fields ∧
      Setting.places fields = Setting.places collected.fields ∧
      (Setting.places fields).map (fun place => (place.1, place.2.length)) = [("title", 2)] := by
  have hStart : Startable repeatedTitleTask (.initial 9) repeatedTitleTask.document.operations :=
    .ofItems (Option.some_get _).symm (by decide +kernel) 9
  have hRun : ((repeatedTitleTask.schema.type? "Hit").bind fun scope =>
      (repeatedTitleTask.schema.type? "Book").bind fun type =>
        (repeatedTitleTask.collectIn scope type repeatedTitle
          (.root "Query")).toOption.bind fun collected =>
            (repeatedTitleTask.treeFields (.root "Found") (.node .synthetic (.selection []) "Found"
              scope repeatedTitle collected.fragments)).toOption.map fun fields =>
                (Setting.places fields).map fun place => (place.1, place.2.length)) =
      some [("title", 2)] := by
    decide +kernel
  obtain ⟨scope, hScope, hRun⟩ := Option.bind_eq_some_iff.mp hRun
  obtain ⟨type, hType, hRun⟩ := Option.bind_eq_some_iff.mp hRun
  obtain ⟨collected, hCollected, hRun⟩ := Option.bind_eq_some_iff.mp hRun
  obtain ⟨fields, hFields, hPlaces⟩ := Option.map_eq_some_iff.mp hRun
  rw [Outcome.toOption_eq_some_iff] at hCollected hFields
  have hInside : repeatedTitle ⊆ repeatedTitleTask.document.nodes := by
    have hFound : (⟨⟨1, 3⟩, none, "found", repeatedTitle⟩ : FieldNode).selection ∈
        repeatedTitleTask.document.nodes := by decide +kernel
    exact fun _ hMem => Document.mem_nodes_of_body (Document.body_of_node hFound) hMem
  have hApart : repeatedTitleTask.InlinesApart repeatedTitle :=
    .of_positions hStart.setting.positions hInside
  obtain ⟨hAgrees, _⟩ :=
    treeFields_agrees_with_collectIn hStart.setting.document hApart hCollected
  exact ⟨scope, type, collected, fields, hScope, hType, hCollected, hFields,
    hAgrees _ _ _ _ _ _ hFields, hPlaces⟩

end ResponseModels
