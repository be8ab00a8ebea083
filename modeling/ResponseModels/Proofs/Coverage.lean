import ResponseModels.Proofs.Run.Stages
import ResponseModels.Proofs.Run.Uniform

/-! The response keys that a class has, against those that are collected for the types which are
read into it. A class for one type has them all. A class that several types share has those which
the return type has or which a fragment that applies to all of the types has. -/
namespace ResponseModels

open GraphQL

/-- The types whose values are read into a class. -/
def ParserModel.typesReadInto (parser : ParserModel) (model : ClassModel) : List String :=
  (parser.discriminators.entries.filter (·.2 == model.name)).map Prod.fst

variable {task : Task} {setting : Setting} {names : Names} {operations : List Operation}
  {parents requests taken rest : List Request} {before after : Session} {request : Request}
  {occurrence : Occurrence} {case : Collected} {cases : List Collected}

/-- The trees in grown ones are opened by fragments that apply. -/
theorem Setting.Grown.opened_within {type scope : SchemaType} {selections : List Selection}
    {trees : List FragmentTree} (h : setting.Grown type scope selections trees)
    {tree subtree : FragmentTree} (hTree : tree ∈ trees)
    (hWithin : FragmentTree.Within subtree tree) :
    ∃ scope selection, setting.Opens scope selection subtree.branch ∧
      setting.schema.applies subtree.condition type = true := by
  induction hWithin generalizing scope selections trees with
  | self =>
      obtain ⟨opener, _, hOpens, hApplies⟩ := h.opened hTree
      exact ⟨scope, opener, hOpens, hApplies⟩
  | inner hChild _ ih => exact ih (h.inner hTree) hChild

namespace Sound.IsCase

theorem grown (hSetting : setting.Admissible) (hKnown : request.Known setting requests)
    (h : IsCase setting request case) :
    case.selections = request.selections ∧
      setting.Grown case.type request.declared request.selections case.fragments := by
  obtain ⟨object, _, hCollected⟩ := h
  obtain ⟨hType, hSelections, hGathering⟩ :=
    Setting.gathering_of_collectIn hSetting hKnown.declared hKnown.nodes hCollected
  rw [hType]
  exact ⟨hSelections, hGathering.grown⟩

theorem rooted (hSetting : setting.Admissible) (h : History setting parents requests)
    (hRequest : request ∈ requests) (hCase : IsCase setting request case)
    {fragment : FragmentTree} (hFragment : fragment ∈ case.fragments) :
    Rooted setting requests fragment := by
  obtain ⟨_, hGrown⟩ := hCase.grown hSetting (h.known hSetting request hRequest)
  have hFrom : setting.Grown case.type request.branch.condition request.branch.selections
      case.fragments := hGrown
  exact hFrom.rooted (.requested hRequest) hFragment

theorem mem_keys_iff (hSetting : setting.Admissible) (hKnown : request.Known setting requests)
    (h : IsCase setting request case) (key : String) :
    key ∈ case.fields.map MergedField.responseKey ↔
      ∃ occurrence, setting.Reaches case.type request.declared request.selections occurrence ∧
        occurrence.key = key := by
  obtain ⟨object, _, hCollected⟩ := h
  rw [Setting.collectIn_type hCollected]
  exact Setting.mem_collected_iff hSetting hKnown.declared hKnown.nodes hCollected key

end Sound.IsCase

namespace Request

/-- The return tree selects all that stands directly in the selection set. -/
theorem Returns.holds {bases : List FragmentTree} (h : request.Returns setting bases)
    {node : FieldNode} (hNode : node.selection ∈ request.selections) :
    request.returnTree.Holds ⟨request.declared, node⟩ := by
  obtain ⟨collected, _, hTree⟩ := h
  rw [hTree, FragmentTree.holds_hoist_iff, FragmentTree.holds_iff]
  exact .inl ⟨rfl, hNode⟩

/-- A fragment is known to the return tree, or it is beyond it. -/
theorem holds_or_extra (hSetting : setting.Admissible) (h : History setting parents requests)
    (hReturn : Rooted setting requests request.returnTree) {tree : FragmentTree}
    (hTree : Rooted setting requests tree) (hKind : tree.kind ≠ .synthetic)
    (hHolds : tree.Holds occurrence) :
    request.returnTree.Holds occurrence ∨
      ∃ extra ∈ tree.extras request.returnTree.allKeys, extra.Holds occurrence := by
  rw [FragmentTree.extras_fragment _ hKind]
  by_cases hKey : tree.key ∈ request.returnTree.allKeys
  · obtain ⟨subtree, hWithin, hSame⟩ := (FragmentTree.mem_allKeys_iff _ _).mp hKey
    rw [← h.tree_eq hSetting (hReturn.within hWithin) hTree hSame] at hHolds
    exact .inl (hHolds.of_within hWithin)
  · rw [if_neg hKey]
    exact .inr ⟨tree, List.mem_singleton.mpr rfl, hHolds⟩

/-- What a fragment of a type case holds, the return tree holds or a fragment beyond it. -/
theorem holds_of_case (hSetting : setting.Admissible) (h : History setting parents requests)
    (hRequest : request ∈ requests) (hCase : Sound.IsCase setting request case)
    {fragment : FragmentTree} (hFragment : fragment ∈ case.fragments)
    (hHolds : fragment.Holds occurrence) :
    request.returnTree.Holds occurrence ∨
      ∃ extra ∈ request.caseExtras case, extra.Holds occurrence := by
  have hKnown := h.known hSetting request hRequest
  obtain ⟨_, hGrown⟩ := hCase.grown hSetting hKnown
  unfold caseExtras
  rcases FragmentTree.within_iff.mp
    (FragmentTree.within_hoist case.type.name (request.caseTree case)) with
    hSame | ⟨child, hChild, hWithin⟩
  · have hRooted := hCase.rooted hSetting h hRequest hFragment
    obtain ⟨_, _, hOpens, _⟩ := hGrown.opened_within hFragment (.self _)
    rw [hSame, FragmentTree.extras_synthetic _ rfl]
    rcases holds_or_extra hSetting h hKnown.rooted hRooted hOpens.fragment_kind hHolds with
      hReturn | ⟨extra, hExtra, hInner⟩
    · exact .inl hReturn
    · exact .inr ⟨extra, List.mem_flatMap.mpr ⟨fragment, hFragment, hExtra⟩, hInner⟩
  · -- The case gave way to a fragment in it, which holds all that the case does.
    have hRooted := (hCase.rooted hSetting h hRequest hChild).within hWithin
    obtain ⟨_, _, hOpens, _⟩ := hGrown.opened_within hChild hWithin
    refine holds_or_extra hSetting h hKnown.rooted hRooted hOpens.fragment_kind ?_
    rw [FragmentTree.holds_hoist_iff, FragmentTree.holds_iff]
    exact .inr ⟨fragment, hFragment, hHolds⟩

/-- All that is reached at the type of a case, the return tree exposes or a fragment beyond it. -/
theorem exposes_of_reaches (hSetting : setting.Admissible) (h : History setting parents requests)
    (hRequest : request ∈ requests) (hCase : Sound.IsCase setting request case)
    (hReaches : setting.Reaches case.type request.declared request.selections occurrence) :
    request.returnTree.Exposes occurrence.key ∨
      ∃ extra ∈ request.caseExtras case, extra.Exposes occurrence.key := by
  have hKnown := h.known hSetting request hRequest
  obtain ⟨_, hGrown⟩ := hCase.grown hSetting hKnown
  rcases (hGrown.reaches_iff hSetting hKnown.declared hKnown.nodes).mp hReaches with
    ⟨_, hNode⟩ | ⟨fragment, hFragment, hHolds⟩
  · obtain ⟨prior, _, hMade⟩ := h.made hRequest
    obtain ⟨_, hReturns⟩ := hMade.returns
    exact .inl ⟨_, hReturns.holds hNode, rfl⟩
  · rcases holds_of_case hSetting h hRequest hCase hFragment hHolds with
      hReturn | ⟨extra, hExtra, hInner⟩
    · exact .inl ⟨occurrence, hReturn, rfl⟩
    · exact .inr ⟨extra, hExtra, occurrence, hInner, rfl⟩

/-- Fragments beyond the return tree are reached at the type of the case. -/
theorem reaches_of_extra (hSetting : setting.Admissible) (hKnown : request.Known setting requests)
    (hCase : Sound.IsCase setting request case) {extra : FragmentTree}
    (hExtra : extra ∈ request.caseExtras case) (hHolds : extra.Holds occurrence) :
    setting.Reaches case.type request.declared request.selections occurrence := by
  obtain ⟨_, hGrown⟩ := hCase.grown hSetting hKnown
  obtain ⟨fragment, hFragment, hWithin⟩ := within_of_mem_caseExtras hExtra
  exact (hGrown.reaches_iff hSetting hKnown.declared hKnown.nodes).mpr
    (.inr ⟨fragment, hFragment, hHolds.of_within hWithin⟩)

end Request

/-- The response keys of a class for one type are those collected for the type, and no others where
the return tree is faithful. -/
theorem Offers.covers (hSetting : setting.Admissible) (h : History setting parents requests)
    (hRequest : request ∈ requests) (hCase : Sound.IsCase setting request case)
    {model : ClassModel} (hOffers : Offers setting request case [case.type] model) :
    (∀ key ∈ case.fields.map MergedField.responseKey,
        key ∈ InterfaceModel.fieldNamesOf model.implements) ∧
      (request.Faithful setting → ∀ key ∈ InterfaceModel.fieldNamesOf model.implements,
        key ∈ case.fields.map MergedField.responseKey) := by
  have hKnown := h.known hSetting request hRequest
  obtain ⟨_, hGrown⟩ := hCase.grown hSetting hKnown
  constructor
  · intro key hKey
    obtain ⟨occurrence, hReaches, rfl⟩ := (hCase.mem_keys_iff hSetting hKnown key).mp hKey
    rw [hOffers]
    rcases Request.exposes_of_reaches hSetting h hRequest hCase hReaches with
      hReturn | ⟨extra, hExtra, hExposes⟩
    · exact .inl hReturn
    · obtain ⟨fragment, hFragment, hWithin⟩ := Request.within_of_mem_caseExtras hExtra
      obtain ⟨_, _, _, hApplies⟩ := hGrown.opened_within hFragment hWithin
      exact .inr ⟨extra, hExtra, by simpa using hApplies, hExposes⟩
  · intro hFaithful key hKey
    rw [hCase.mem_keys_iff hSetting hKnown]
    rw [hOffers] at hKey
    rcases hKey with ⟨occurrence, hHolds, rfl⟩ | ⟨extra, hExtra, _, occurrence, hHolds, rfl⟩
    · refine ⟨occurrence, ?_, rfl⟩
      obtain ⟨object, hObject, hCollected⟩ := hCase
      rw [Setting.collectIn_type hCollected]
      refine (hFaithful occurrence hHolds).mono hSetting ?_ hKnown.declared (List.Subset.refl _)
      exact fun condition hCondition hApplies => hSetting.schema.wellFormed.applies_possible
        hCondition hKnown.declared hObject hApplies
    · exact ⟨occurrence, Request.reaches_of_extra hSetting hKnown hCase hExtra hHolds, rfl⟩

/-- A class that one type is read into is the class of that type's case. -/
theorem Classified.exists_case {parser : ParserModel}
    (h : Classified setting request cases parser) {model : ClassModel}
    (hClass : model ∈ parser.classes) {type : String}
    (hOnly : parser.typesReadInto model = [type]) :
    ∃ case ∈ cases, case.type.name = type ∧ Offers setting request case [case.type] model := by
  unfold ParserModel.typesReadInto at hOnly
  cases h with
  | @each entries hEach hClasses hRead =>
      rw [hClasses] at hClass
      obtain ⟨entry, hEntry, rfl⟩ := List.mem_map.mp hClass
      obtain ⟨case, hCase, hType, hOffers⟩ := Outcome.exists_left hEach hEntry
      have hMem : entry.1 ∈ [type] := by
        rw [← hOnly, hRead]
        refine List.mem_map.mpr ⟨(entry.1, entry.2.name), ?_, rfl⟩
        rw [List.mem_filter]
        exact ⟨List.mem_map_of_mem hEntry, beq_self_eq_true _⟩
      exact ⟨case, hCase, hType.symm.trans (List.mem_singleton.mp hMem), hOffers⟩
  | @lone first rest lone hSplit hSame hOffers hClasses hRead =>
      rw [hClasses, List.mem_singleton] at hClass
      subst hClass
      have hAll : (cases.map fun case => case.type.name) = [type] := by
        rw [← hOnly, hRead, List.filter_eq_self.mpr (by simp), List.map_map]
        rfl
      rw [hSplit, List.map_cons] at hAll
      injection hAll with hFirst hRest
      rw [hSplit, List.map_eq_nil_iff.mp hRest] at hOffers ⊢
      exact ⟨first, List.mem_singleton.mpr rfl, hFirst, hOffers⟩

/-- The response keys of a class for one type, against those that are collected for the type. -/
theorem class_covers_collected_keys (hStart : Startable task names operations)
    (hStage : Stage task names operations taken (request :: rest) before)
    {selected : SelectedModel} (hModel : (Build.model task request).Yields before selected after)
    {model : ClassModel} (hClass : model ∈ selected.parser.classes) {type : String}
    (hOnly : selected.parser.typesReadInto model = [type]) :
    ∃ object collected, task.schema.type? type = some (.object object) ∧
      task.collectIn request.declared (.object object) request.selections request.path =
        .ok collected ∧
      (∀ key ∈ collected.fields.map MergedField.responseKey,
        key ∈ InterfaceModel.fieldNamesOf model.implements) ∧
      (GrowUniformly task.toSetting (taken ++ [request]) →
        ∀ key ∈ InterfaceModel.fieldNamesOf model.implements,
          key ∈ collected.fields.map MergedField.responseKey) := by
  have hSetting := hStart.setting
  obtain ⟨requests, cases, hHistory, hRequest, hCases, hClassified⟩ := hStage.modelled hStart hModel
  obtain ⟨case, hCase, rfl, hOffers⟩ := hClassified.exists_case hClass hOnly
  have hIsCase := Sound.isCase_of_casesIn hCases case hCase
  obtain ⟨hCovered, hOnlyThose⟩ := hOffers.covers hSetting hHistory hRequest hIsCase
  obtain ⟨object, hObject, hCollected⟩ := hIsCase
  refine ⟨object, case, ?_, hCollected, hCovered, fun hUniform => hOnlyThose ?_⟩
  · rw [Setting.collectIn_type hCollected]
    exact hSetting.schema.wellFormed.type?_of_possible hObject
  · exact hHistory.faithful hSetting hUniform request hRequest

/-- A union of books and films, all of which have a title. -/
def hitTypes : List SchemaItem :=
  [.define ⟨⟨1, 1⟩, none, "Query", .object [] [⟨⟨1, 9⟩, none, "found", .named "Hit"⟩]⟩,
    .define ⟨⟨2, 1⟩, none, "Hit", .union ["Book", "Film"]⟩,
    .define ⟨⟨3, 1⟩, none, "Titled", .interface [] [⟨⟨3, 9⟩, none, "title", .named "String"⟩]⟩,
    .define ⟨⟨4, 1⟩, none, "Book", .object ["Titled"]
      [⟨⟨4, 9⟩, none, "title", .named "String"⟩, ⟨⟨4, 19⟩, none, "pages", .named "Int"⟩]⟩,
    .define ⟨⟨5, 1⟩, none, "Film", .object ["Titled"]
      [⟨⟨5, 9⟩, none, "title", .named "String"⟩]⟩]

/-- A query for what was found, with a fragment for titles. -/
def hitItems (inside : List Selection) : List ExecutableItem :=
  [.operation ⟨.query, none, ⟨1, 1⟩, [], [.field ⟨1, 3⟩ none "found" inside]⟩,
    .fragment ⟨"Heading", "Titled", ⟨9, 1⟩, [.field ⟨9, 9⟩ none "title" []]⟩]

/-- The title of every hit, and the pages of a book. -/
def pagesTask : Task :=
  (Task.ofItems? hitTypes (hitItems [.spread ⟨2, 1⟩ "Heading",
    .inline ⟨3, 1⟩ (some "Book") [.field ⟨3, 9⟩ none "pages" []]])).get (by decide +kernel)

theorem startable_pagesTask : Startable pagesTask (.initial 9) pagesTask.document.operations :=
  .ofItems (Option.some_get _).symm (by decide +kernel) 9

/-- The class for books has the title through the fragment and the pages as well. -/
theorem book_class_covers_collected_keys :
    ∃ taken request rest before selected after model,
      Stage pagesTask (.initial 9) pagesTask.document.operations taken (request :: rest) before ∧
      (Build.model pagesTask request).Yields before selected after ∧
      model ∈ selected.parser.classes ∧ selected.parser.typesReadInto model = ["Book"] ∧
      GrowUniformly pagesTask.toSetting (taken ++ [request]) ∧
      ∃ object collected, pagesTask.schema.type? "Book" = some (.object object) ∧
        pagesTask.collectIn request.declared (.object object) request.selections request.path =
          .ok collected ∧
        ∀ key, key ∈ collected.fields.map MergedField.responseKey ↔ key ∈ ["title", "pages"] := by
  have hRun : ((Stage.models? pagesTask (.initial 9) pagesTask.document.operations 3).bind
      fun (_, selected) => (selected.parser.classes.find?
        (selected.parser.typesReadInto · == ["Book"])).map fun model =>
          InterfaceModel.fieldNamesOf model.implements) = some ["title", "pages"] := by
    decide +kernel
  obtain ⟨⟨request, selected⟩, hSelected, hFound⟩ := Option.bind_eq_some_iff.mp hRun
  obtain ⟨model, hModel, hNames⟩ := Option.map_eq_some_iff.mp hFound
  have hClass := List.mem_of_find?_eq_some hModel
  have hTypes := List.find?_some hModel
  have hOnly : selected.parser.typesReadInto model = ["Book"] := eq_of_beq hTypes
  obtain ⟨taken, rest, before, after, hStage, hYields⟩ := Stage.exists_of_models? hSelected
  have hValid := hStage.valid startable_pagesTask
  have hUnambiguous : pagesTask.Unambiguous := by decide +kernel
  have hUniform := hUnambiguous.growUniformly startable_pagesTask.setting
    (hValid.sound.known startable_pagesTask.setting) hValid.taking.active
  obtain ⟨object, collected, hType, hCollected, hCovered, hOnlyThose⟩ :=
    class_covers_collected_keys startable_pagesTask hStage hYields hClass hOnly
  refine ⟨taken, request, rest, before, selected, after, model, hStage, hYields, hClass, hOnly,
    hUniform, object, collected, hType, hCollected, fun key => ?_⟩
  rw [← hNames]
  exact ⟨hCovered key, hOnlyThose hUniform key⟩

/-- A field that was collected has the response key of the node at the first of its locations. -/
theorem Setting.exists_node_of_collected (hSetting : setting.Admissible)
    {scope type : SchemaType} {selections : List Selection} {path : ModelPath}
    (hScope : setting.Knows scope) (hNodes : selections ⊆ setting.document.nodes)
    {collected : Collected}
    (h : setting.collectIn scope type selections path = .ok collected) {merged : MergedField}
    (hMerged : merged ∈ collected.fields) :
    ∃ node : FieldNode, node.selection ∈ setting.document.nodes ∧
      node.responseKey = merged.responseKey ∧
      merged.locations.head? = some (setting.document.locate node.position) := by
  obtain ⟨_, _, hGathering⟩ := gathering_of_collectIn hSetting hScope hNodes h
  obtain ⟨nodes, hMerge, hReached⟩ := hGathering.merged
  have hFrom := (merged_of_mergeAll hMerge).each merged hMerged
  obtain ⟨first, hFirst, hKey, _, hHead⟩ := hFrom.head_node
  obtain ⟨node, hNode, rfl⟩ := List.mem_map.mp hFirst
  obtain ⟨condition, hReaches⟩ := (hReached node).mp hNode
  refine ⟨node, hReaches.mem_nodes hNodes, hKey, ?_⟩
  rw [hFrom.locations, List.head?_map, hHead, Option.map_some]

/-- Cases that select the same fields have the same response keys, as a location tells the node. -/
theorem Collected.keys_eq_of_sameFields (hSetting : setting.Admissible)
    (hKnown : request.Known setting requests) {first second : Collected}
    (hFirst : Sound.IsCase setting request first) (hSecond : Sound.IsCase setting request second)
    (hSame : first.sameFields second = true) :
    first.fields.map MergedField.responseKey = second.fields.map MergedField.responseKey := by
  obtain ⟨_, _, hFirst⟩ := hFirst
  obtain ⟨_, _, hSecond⟩ := hSecond
  rw [Collected.sameFields, Bool.and_eq_true, List.all_eq_true] at hSame
  have hLength := eq_of_beq hSame.1
  refine List.ext_getElem (by simpa using hLength) fun index hLeft hRight => ?_
  rw [List.length_map] at hLeft hRight
  rw [List.getElem_map, List.getElem_map]
  have hPair := hSame.2 (first.fields[index], second.fields[index])
    (List.mem_iff_getElem.mpr ⟨index, by rw [List.length_zip]; omega, by simp⟩)
  rw [MergedField.sameSelection, Bool.and_eq_true] at hPair
  have hLocations := eq_of_beq hPair.2
  obtain ⟨node, hNode, hKey, hHead⟩ := Setting.exists_node_of_collected hSetting hKnown.declared
    hKnown.nodes hFirst (List.getElem_mem hLeft)
  obtain ⟨node', hNode', hKey', hHead'⟩ := Setting.exists_node_of_collected hSetting
    hKnown.declared hKnown.nodes hSecond (List.getElem_mem hRight)
  rw [← hLocations, hHead] at hHead'
  have hPosition := Document.locate_inj (Option.some.inj hHead')
  have hEqual := FieldNode.selection_inj (hSetting.positions.node_eq hNode hNode' hPosition)
  rw [← hKey, ← hKey', hEqual]

/-- No fragment on an object type applies to several possible types. -/
theorem Schema.WellFormed.not_applies_all {schema : Schema} (h : schema.WellFormed)
    {condition : SchemaType} (hCondition : schema.type? condition.name = some condition)
    {object : FieldedType} (hObject : schema.type? object.name = some (.object object))
    (hName : condition.name = object.name) {declared : String}
    (hMany : 2 ≤ (schema.possibleTypes declared).length) :
    ¬ ∀ other ∈ schema.possibleTypes declared,
      schema.applies condition (.object other) = true := by
  intro hAll
  have hEqual : condition = .object object := by
    rw [hName, hObject] at hCondition
    exact (Option.some.inj hCondition).symm
  subst hEqual
  have hNodup := h.nodup_possible declared
  match hPossible : schema.possibleTypes declared with
  | [] => simp [hPossible] at hMany
  | [_] => simp [hPossible] at hMany
  | first :: second :: _ =>
      rw [hPossible] at hAll hNodup
      have hFirst := Schema.name_eq_of_applies hObject (hAll first (by simp))
      have hSecond := Schema.name_eq_of_applies hObject (hAll second (by simp))
      simp [← hFirst, ← hSecond] at hNodup

/-- Unless the case gives way, the fragments beyond the return tree are those among the fragments
of the case that the return tree does not know. -/
theorem Request.mem_caseExtras_iff (hSetting : setting.Admissible)
    (hKnown : request.Known setting requests) (hCase : Sound.IsCase setting request case)
    (hSame : (request.caseTree case).hoist case.type.name = request.caseTree case)
    {tree : FragmentTree} : tree ∈ request.caseExtras case ↔
      tree ∈ case.fragments ∧ tree.key ∉ request.returnTree.allKeys := by
  obtain ⟨_, hGrown⟩ := hCase.grown hSetting hKnown
  have hExtras : ∀ fragment ∈ case.fragments, fragment.extras request.returnTree.allKeys =
      if fragment.key ∈ request.returnTree.allKeys then [] else [fragment] := by
    intro fragment hFragment
    obtain ⟨_, _, hOpens, _⟩ := hGrown.opened_within hFragment (.self _)
    exact FragmentTree.extras_fragment _ hOpens.fragment_kind
  rw [caseExtras, hSame, FragmentTree.extras_synthetic _ rfl, List.mem_flatMap]
  constructor
  · rintro ⟨fragment, hFragment, hMem⟩
    rw [hExtras fragment hFragment] at hMem
    split at hMem
    · cases hMem
    · rename_i hNew
      rw [List.mem_singleton.mp hMem]
      exact ⟨hFragment, hNew⟩
  · rintro ⟨hFragment, hNew⟩
    refine ⟨tree, hFragment, ?_⟩
    rw [hExtras tree hFragment, if_neg hNew]
    exact List.mem_singleton.mpr rfl

/-- Unless the case gives way, what its fragments expose is exposed by the return tree, or the
fragment is beyond it. -/
theorem Request.exposes_or_mem_caseExtras (hSetting : setting.Admissible)
    (h : History setting parents requests) (hRequest : request ∈ requests)
    (hCase : Sound.IsCase setting request case)
    (hSame : (request.caseTree case).hoist case.type.name = request.caseTree case)
    {fragment : FragmentTree} (hFragment : fragment ∈ case.fragments) {key : String}
    (hExposes : fragment.Exposes key) :
    request.returnTree.Exposes key ∨ fragment ∈ request.caseExtras case := by
  have hKnown := h.known hSetting request hRequest
  rw [mem_caseExtras_iff hSetting hKnown hCase hSame]
  by_cases hKey : fragment.key ∈ request.returnTree.allKeys
  · obtain ⟨subtree, hWithin, hSubtree⟩ := (FragmentTree.mem_allKeys_iff _ _).mp hKey
    have hRooted := hCase.rooted hSetting h hRequest hFragment
    obtain ⟨occurrence, hHolds, rfl⟩ := hExposes
    rw [← h.tree_eq hSetting (hKnown.rooted.within hWithin) hRooted hSubtree] at hHolds
    exact .inl ⟨occurrence, hHolds.of_within hWithin, rfl⟩
  · exact .inr ⟨hFragment, hKey⟩

/-- If the case gives way, what is beyond the return tree is a fragment on the type of the case. -/
theorem Request.condition_of_mem_caseExtras (hSetting : setting.Admissible)
    (h : History setting parents requests) (hRequest : request ∈ requests)
    (hCase : Sound.IsCase setting request case)
    (hGave : (request.caseTree case).hoist case.type.name ≠ request.caseTree case)
    {tree : FragmentTree} (hTree : tree ∈ request.caseExtras case) :
    Rooted setting requests tree ∧ tree.condition.name = case.type.name := by
  obtain ⟨_, hGrown⟩ := hCase.grown hSetting (h.known hSetting request hRequest)
  rcases FragmentTree.within_iff.mp (FragmentTree.within_hoist case.type.name
    (request.caseTree case)) with hStays | ⟨child, hChild, hWithin⟩
  · exact absurd hStays hGave
  · obtain ⟨_, _, hOpens, _⟩ := hGrown.opened_within hChild hWithin
    rw [caseExtras, FragmentTree.extras_fragment _ hOpens.fragment_kind] at hTree
    split at hTree
    · cases hTree
    · rw [List.mem_singleton.mp hTree]
      exact ⟨(hCase.rooted hSetting h hRequest hChild).within hWithin,
        FragmentTree.condition_name_hoist_of_ne _ _ hGave⟩

/-- A tree on the type of a case stands for that type alone. -/
theorem Sound.IsCase.not_applies_all (hSetting : setting.Admissible)
    (h : History setting parents requests) (hCase : IsCase setting request case)
    (hMany : 2 ≤ (setting.schema.possibleTypes request.declared.name).length)
    {tree : FragmentTree} (hTree : Rooted setting requests tree)
    (hName : tree.condition.name = case.type.name) :
    ¬ ∀ other ∈ setting.schema.possibleTypes request.declared.name,
      setting.schema.applies tree.condition (.object other) = true := by
  obtain ⟨object, hPossible, hCollected⟩ := hCase
  have hObject := hSetting.schema.wellFormed.type?_of_possible hPossible
  rw [Setting.collectIn_type hCollected] at hName
  have hCondition : setting.Knows tree.branch.condition :=
    (hTree tree (.self _)).knows hSetting (h.known hSetting)
  exact hSetting.schema.wellFormed.not_applies_all hCondition hObject hName hMany

/-- The response keys of a class that several types share: those of the return tree, and those of
fragments in the first case that apply to all of the types. -/
theorem Offers.shared (hSetting : setting.Admissible) (h : History setting parents requests)
    (hRequest : request ∈ requests) (hCase : Sound.IsCase setting request case)
    (hMany : 2 ≤ (setting.schema.possibleTypes request.declared.name).length)
    {model : ClassModel} (hOffers : Offers setting request case
      ((setting.schema.possibleTypes request.declared.name).map .object) model) (key : String) :
    key ∈ InterfaceModel.fieldNamesOf model.implements ↔
      request.returnTree.Exposes key ∨ ∃ fragment ∈ case.fragments,
        (∀ object ∈ setting.schema.possibleTypes request.declared.name,
          setting.schema.applies fragment.condition (.object object) = true) ∧
        fragment.Exposes key := by
  rw [hOffers key]
  simp only [List.forall_mem_map]
  by_cases hSame : (request.caseTree case).hoist case.type.name = request.caseTree case
  · constructor
    · rintro (hReturn | ⟨tree, hTree, hAll, hExposes⟩)
      · exact .inl hReturn
      · have hKnown := h.known hSetting request hRequest
        have hFragment := (Request.mem_caseExtras_iff hSetting hKnown hCase hSame).mp hTree
        exact .inr ⟨tree, hFragment.1, hAll, hExposes⟩
    · rintro (hReturn | ⟨fragment, hFragment, hAll, hExposes⟩)
      · exact .inl hReturn
      · rcases Request.exposes_or_mem_caseExtras hSetting h hRequest hCase hSame hFragment
          hExposes with hReturn | hExtra
        · exact .inl hReturn
        · exact .inr ⟨fragment, hExtra, hAll, hExposes⟩
  · -- The case gave way to a fragment on its own type, which stands for that type alone. So
    -- neither side has anything but the return tree.
    obtain hStays | ⟨child, hChildren, _, hName, _⟩ :=
      FragmentTree.hoist_cases case.type.name (request.caseTree case)
    · exact absurd hStays hSame
    have hOnly : case.fragments = [child] := hChildren
    constructor
    · rintro (hReturn | ⟨tree, hTree, hAll, _⟩)
      · exact .inl hReturn
      · obtain ⟨hRooted, hCondition⟩ :=
          Request.condition_of_mem_caseExtras hSetting h hRequest hCase hSame hTree
        exact absurd hAll (hCase.not_applies_all hSetting h hMany hRooted hCondition)
    · rintro (hReturn | ⟨fragment, hFragment, hAll, _⟩)
      · exact .inl hReturn
      · have hRooted := hCase.rooted hSetting h hRequest hFragment
        rw [hOnly, List.mem_singleton] at hFragment
        subst hFragment
        exact absurd hAll (hCase.not_applies_all hSetting h hMany hRooted hName)

/-- All types are read into a class that stands alone, when there are several of them. -/
theorem Classified.lone_of_classes {parser : ParserModel}
    (h : Classified setting request cases parser) {model : ClassModel}
    (hClasses : parser.classes = [model]) (hMany : 2 ≤ cases.length) :
    ∃ first rest, cases = first :: rest ∧ rest.all first.sameFields = true ∧
      Offers setting request first (cases.map Collected.type) model := by
  cases h with
  | each hEach hEntries =>
      have hLength := hEach.length_eq
      have hOne := congrArg List.length (hEntries.symm.trans hClasses)
      rw [List.length_map, List.length_singleton] at hOne
      omega
  | lone hSplit hSame hOffers hLone =>
      rw [hLone] at hClasses
      cases hClasses
      exact ⟨_, _, hSplit, hSame, hOffers⟩

/-- A class that several types share has all response keys that are collected for them exactly if
each of the keys is exposed by the return tree, or by a fragment of the first case that applies to
all of the types. -/
theorem shared_class_covers_iff (hStart : Startable task names operations)
    (hStage : Stage task names operations taken (request :: rest) before)
    {selected : SelectedModel} (hModel : (Build.model task request).Yields before selected after)
    {model : ClassModel} (hClasses : selected.parser.classes = [model]) {object : FieldedType}
    {objects : List FieldedType}
    (hPossible : task.schema.possibleTypes request.declared.name = object :: objects)
    (hMany : objects ≠ []) :
    ∃ first, task.collectIn request.declared (.object object) request.selections request.path =
        .ok first ∧
      ((∀ type ∈ object :: objects, ∃ collected,
          task.collectIn request.declared (.object type) request.selections request.path =
            .ok collected ∧
          ∀ key ∈ collected.fields.map MergedField.responseKey,
            key ∈ InterfaceModel.fieldNamesOf model.implements) ↔
        ∀ key ∈ first.fields.map MergedField.responseKey,
          request.returnTree.Exposes key ∨ ∃ fragment ∈ first.fragments,
            (∀ type ∈ object :: objects,
              task.schema.applies fragment.condition (.object type) = true) ∧
            fragment.Exposes key) := by
  have hSetting := hStart.setting
  obtain ⟨requests, cases, hHistory, hRequest, hCases, hClassified⟩ := hStage.modelled hStart hModel
  have hKnown := hHistory.known hSetting request hRequest
  have hIsCase := Sound.isCase_of_casesIn hCases
  have hLength : 2 ≤ (task.schema.possibleTypes request.declared.name).length := by
    rw [hPossible, List.length_cons]
    have hPositive := List.length_pos_iff.mpr hMany
    omega
  obtain ⟨first, others, rfl, hSame, hOffers⟩ :=
    hClassified.lone_of_classes hClasses (hCases.length_eq ▸ hLength)
  rw [Sound.map_type hCases] at hOffers
  have hShared := hOffers.shared hSetting hHistory hRequest (hIsCase first List.mem_cons_self)
    hLength
  unfold Request.CasesIn at hCases
  rw [hPossible] at hShared hCases
  obtain ⟨hFirst, hRest⟩ := List.forall₂_cons.mp hCases
  refine ⟨first, hFirst, ?_, ?_⟩
  · intro hCovered key hKey
    obtain ⟨collected, hCollected, hAll⟩ := hCovered object List.mem_cons_self
    rw [hFirst] at hCollected
    cases hCollected
    exact (hShared key).mp (hAll key hKey)
  · intro hExposed type hType
    obtain ⟨collected, hMem, hCollected⟩ := Outcome.exists_right hCases hType
    refine ⟨collected, hCollected, fun key hKey => (hShared key).mpr (hExposed key ?_)⟩
    rcases List.mem_cons.mp hMem with rfl | hOther
    · exact hKey
    · rwa [Collected.keys_eq_of_sameFields hSetting hKnown (hIsCase first List.mem_cons_self)
        (hIsCase collected hMem) (List.all_eq_true.mp hSame collected hOther)]

/-- The title of every hit, through a fragment for each of the types. -/
def headingTask : Task :=
  (Task.ofItems? hitTypes (hitItems
    [.inline ⟨2, 1⟩ (some "Book") [.spread ⟨2, 9⟩ "Heading"],
      .inline ⟨3, 1⟩ (some "Film") [.spread ⟨3, 9⟩ "Heading"]])).get (by decide +kernel)

/-- The titles are collected for both types, but the class that the types share has none: the only
fragments around them apply to one type each. -/
theorem shared_class_misses_title :
    ∃ taken request rest before selected after model object objects first,
      Stage headingTask (.initial 9) headingTask.document.operations taken (request :: rest)
        before ∧
      (Build.model headingTask request).Yields before selected after ∧
      selected.parser.classes = [model] ∧
      headingTask.schema.possibleTypes request.declared.name = object :: objects ∧
      objects ≠ [] ∧
      headingTask.collectIn request.declared (.object object) request.selections request.path =
        .ok first ∧
      first.fields.map MergedField.responseKey = ["title"] ∧
      InterfaceModel.fieldNamesOf model.implements = [] ∧
      ¬ (request.returnTree.Exposes "title" ∨ ∃ fragment ∈ first.fragments,
        (∀ type ∈ object :: objects,
          headingTask.schema.applies fragment.condition (.object type) = true) ∧
        fragment.Exposes "title") := by
  have hRun : (Stage.models? headingTask (.initial 9) headingTask.document.operations 3).map
      (fun (request, selected) =>
        ((headingTask.schema.possibleTypes request.declared.name).map fun object =>
            (headingTask.collectIn request.declared (.object object) request.selections
              request.path).toOption.map fun case => case.fields.map MergedField.responseKey,
          selected.parser.classes.map fun model =>
            InterfaceModel.fieldNamesOf model.implements)) =
      some ([some ["title"], some ["title"]], [[]]) := by
    decide +kernel
  have hStart : Startable headingTask (.initial 9) headingTask.document.operations :=
    .ofItems (Option.some_get _).symm (by decide +kernel) 9
  obtain ⟨⟨request, selected⟩, hSelected, hComputed⟩ := Option.map_eq_some_iff.mp hRun
  obtain ⟨hKeys, hFields⟩ := Prod.mk.inj hComputed
  obtain ⟨model, none, hClasses, hNames, hNone⟩ := List.map_eq_cons_iff.mp hFields
  rw [List.map_eq_nil_iff.mp hNone] at hClasses
  obtain ⟨object, objects, hPossible, hFirstKeys, hRest⟩ := List.map_eq_cons_iff.mp hKeys
  have hMany : objects ≠ [] := by
    rintro rfl
    cases hRest
  obtain ⟨taken, rest, before, after, hStage, hYields⟩ := Stage.exists_of_models? hSelected
  obtain ⟨first, hFirst, hIff⟩ :=
    shared_class_covers_iff hStart hStage hYields hClasses hPossible hMany
  have hTitle : first.fields.map MergedField.responseKey = ["title"] := by
    rw [hFirst] at hFirstKeys
    exact Option.some.inj hFirstKeys
  refine ⟨taken, request, rest, before, selected, after, model, object, objects, first, hStage,
    hYields, hClasses, hPossible, hMany, hFirst, hTitle, hNames, fun hExposed => ?_⟩
  rw [hTitle] at hIff
  obtain ⟨collected, hCollected, hCovered⟩ := hIff.mpr (by simpa using hExposed) object
    List.mem_cons_self
  rw [hFirst] at hCollected
  cases hCollected
  have hMissing := hCovered "title" (by simp [hTitle])
  rw [hNames] at hMissing
  cases hMissing

end ResponseModels
