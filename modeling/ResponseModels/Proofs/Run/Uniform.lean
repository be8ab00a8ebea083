import ResponseModels.Proofs.Run.Requests

/-! Runs in which the nodes of a field agree on its type. A selection set is then read on one type
only, however often it is requested, and a return tree holds no field node that is not reached from
the selections of its own request. -/
namespace ResponseModels

open GraphQL

variable {setting : Setting} {parents requests prior : List Request} {request other : Request}
  {tree : FragmentTree} {occurrence : Occurrence}

/-- Field nodes that the tree merges under one response key select fields of one innermost
type. -/
def Setting.Uniform (setting : Setting) (tree : FragmentTree) : Prop :=
  ∀ first second, setting.Merges tree first → setting.Merges tree second →
    first.key = second.key → ∀ type type', first.innermost? = some type →
      second.innermost? = some type' → type = type'

/-- All trees that come about by the requests are uniform. -/
def GrowUniformly (setting : Setting) (requests : List Request) : Prop :=
  ∀ request ∈ requests, ∀ tree, request.Grows setting tree → setting.Uniform tree

namespace Setting.Opens

variable {scope scope' : SchemaType} {selection selection' : Selection} {branch branch' : Branch}

/-- What stands in a fragment does not stand directly in an operation or a field. -/
theorem not_requestable (hSetting : setting.Admissible)
    (h : setting.Opens scope selection branch) (hNode : selection ∈ setting.document.nodes)
    {inner : Selection} (hMem : inner ∈ branch.selections) {body : Position × List Selection}
    (hBody : setting.document.Requestable body) : inner ∉ body.2 := by
  intro hInner
  have hPositions := hSetting.positions
  cases h with
  | spread hFragment _ =>
      have hValue := Document.mem_values_of_fragment? hFragment
      have hOwner := hPositions.owner_eq (Document.body_of_fragment hValue) hBody.mem_bodies
        hMem hInner
      cases hBody with
      | operation hOperation => exact hPositions.operation_ne_fragment hOperation hValue hOwner.symm
      | field hField => exact hPositions.fragment_ne_node hValue hField hOwner
  | inlineOn _ =>
      have hOwner := hPositions.owner_eq (Document.body_of_node hNode) hBody.mem_bodies hMem hInner
      cases hBody with
      | operation hOperation => exact hPositions.operation_ne_node hOperation hNode hOwner.symm
      | field hField => cases hPositions.node_eq hNode hField hOwner
  | inline =>
      have hOwner := hPositions.owner_eq (Document.body_of_node hNode) hBody.mem_bodies hMem hInner
      cases hBody with
      | operation hOperation => exact hPositions.operation_ne_node hOperation hNode hOwner.symm
      | field hField => cases hPositions.node_eq hNode hField hOwner

/-- What stands in two branches stands in one fragment. Its condition is the same, or it has none
of its own. -/
theorem condition_eq_or (hSetting : setting.Admissible) (h : setting.Opens scope selection branch)
    (h' : setting.Opens scope' selection' branch') (hNode : selection ∈ setting.document.nodes)
    (hNode' : selection' ∈ setting.document.nodes) {inner : Selection}
    (hMem : inner ∈ branch.selections) (hMem' : inner ∈ branch'.selections) :
    branch.condition = branch'.condition ∨
      selection = selection' ∧ branch.condition = scope ∧ branch'.condition = scope' := by
  have hPositions := hSetting.positions
  cases h with
  | spread hFragment hCondition =>
      have hValue := Document.mem_values_of_fragment? hFragment
      have hBody := Document.body_of_fragment hValue
      cases h' with
      | spread hFragment' hCondition' =>
          have hValue' := Document.mem_values_of_fragment? hFragment'
          have hOwner := hPositions.owner_eq hBody (Document.body_of_fragment hValue') hMem hMem'
          cases hPositions.fragment_eq hValue hValue' hOwner
          rw [hCondition] at hCondition'
          exact .inl (Option.some.inj hCondition')
      | inlineOn _ =>
          have hOwner := hPositions.owner_eq hBody (Document.body_of_node hNode') hMem hMem'
          exact absurd hOwner (hPositions.fragment_ne_node hValue hNode')
      | inline =>
          have hOwner := hPositions.owner_eq hBody (Document.body_of_node hNode') hMem hMem'
          exact absurd hOwner (hPositions.fragment_ne_node hValue hNode')
  | inlineOn hCondition =>
      have hBody := Document.body_of_node hNode
      cases h' with
      | spread hFragment' _ =>
          have hValue' := Document.mem_values_of_fragment? hFragment'
          have hOwner := hPositions.owner_eq hBody (Document.body_of_fragment hValue') hMem hMem'
          exact absurd hOwner.symm (hPositions.fragment_ne_node hValue' hNode)
      | inlineOn hCondition' =>
          have hOwner := hPositions.owner_eq hBody (Document.body_of_node hNode') hMem hMem'
          cases hPositions.node_eq hNode hNode' hOwner
          rw [hCondition] at hCondition'
          exact .inl (Option.some.inj hCondition')
      | inline =>
          have hOwner := hPositions.owner_eq hBody (Document.body_of_node hNode') hMem hMem'
          cases hPositions.node_eq hNode hNode' hOwner
  | inline =>
      have hBody := Document.body_of_node hNode
      cases h' with
      | spread hFragment' _ =>
          have hValue' := Document.mem_values_of_fragment? hFragment'
          have hOwner := hPositions.owner_eq hBody (Document.body_of_fragment hValue') hMem hMem'
          exact absurd hOwner.symm (hPositions.fragment_ne_node hValue' hNode)
      | inlineOn _ =>
          have hOwner := hPositions.owner_eq hBody (Document.body_of_node hNode') hMem hMem'
          cases hPositions.node_eq hNode hNode' hOwner
      | inline =>
          have hOwner := hPositions.owner_eq hBody (Document.body_of_node hNode') hMem hMem'
          exact .inr ⟨hPositions.node_eq hNode hNode' hOwner, rfl, rfl⟩

end Setting.Opens

/-- Requests that share a node are at the same type. -/
def Agreeing (requests : List Request) : Prop :=
  ∀ request ∈ requests, ∀ other ∈ requests, ∀ location ∈ request.locations,
    location ∈ other.locations → request.declared = other.declared

/-- Among agreeing requests a selection is met on one type only. -/
theorem Head.condition_eq (hSetting : setting.Admissible)
    (hKnown : ∀ request ∈ requests, request.Known setting requests) (hAgreeing : Agreeing requests)
    {branch branch' : Branch} (h : Head setting requests branch)
    (h' : Head setting requests branch') {selection : Selection}
    (hMem : selection ∈ branch.selections) (hMem' : selection ∈ branch'.selections) :
    branch.condition = branch'.condition := by
  have hPositions := hSetting.positions
  induction h generalizing branch' selection with
  | requested hRequest =>
      obtain ⟨body, hBody, hLocated, hInner⟩ :=
        ((hKnown _ hRequest).mem_selections_iff hPositions selection).mp hMem
      cases h' with
      | requested hRequest' =>
          obtain ⟨body', hBody', hLocated', hInner'⟩ :=
            ((hKnown _ hRequest').mem_selections_iff hPositions selection).mp hMem'
          have hOwner := hPositions.owner_eq hBody.mem_bodies hBody'.mem_bodies hInner hInner'
          rw [← hOwner] at hLocated'
          exact hAgreeing _ hRequest _ hRequest' _ hLocated hLocated'
      | opened hOuter hOpener hOpens =>
          have hNode := hOuter.subset_nodes hKnown hOpener
          exact absurd hInner (hOpens.not_requestable hSetting hNode hMem' hBody)
  | opened hOuter hOpener hOpens ih =>
      have hNode := hOuter.subset_nodes hKnown hOpener
      cases h' with
      | requested hRequest' =>
          obtain ⟨body', hBody', _, hInner'⟩ :=
            ((hKnown _ hRequest').mem_selections_iff hPositions selection).mp hMem'
          exact absurd hInner' (hOpens.not_requestable hSetting hNode hMem hBody')
      | opened hOuter' hOpener' hOpens' =>
          have hNode' := hOuter'.subset_nodes hKnown hOpener'
          rcases hOpens.condition_eq_or hSetting hOpens' hNode hNode' hMem hMem' with
            hSame | ⟨rfl, hScope, hScope'⟩
          · exact hSame
          · rw [hScope, hScope']
            exact ih hOuter' hOpener hOpener'

/-- Among agreeing requests a field node is met on one type only. -/
theorem Agreeing.type_eq (hSetting : setting.Admissible)
    (hKnown : ∀ request ∈ requests, request.Known setting requests) (hAgreeing : Agreeing requests)
    {tree tree' : FragmentTree} (hTree : Rooted setting requests tree)
    (hTree' : Rooted setting requests tree') {occurrence occurrence' : Occurrence}
    (h : tree.Holds occurrence) (h' : tree'.Holds occurrence')
    (hNode : occurrence.node = occurrence'.node) : occurrence = occurrence' := by
  obtain ⟨subtree, hWithin, hType, hMem⟩ := h
  obtain ⟨subtree', hWithin', hType', hMem'⟩ := h'
  rw [← hNode] at hMem'
  have hSame : subtree.condition = subtree'.condition :=
    (hTree subtree hWithin).condition_eq hSetting hKnown hAgreeing (hTree' subtree' hWithin')
      hMem hMem'
  obtain ⟨type, node⟩ := occurrence
  obtain ⟨type', node'⟩ := occurrence'
  dsimp only at hNode hType hType'
  rw [hType, hType', hSame, hNode]

/-- In a uniform tree each node of a merged field selects a field of the same innermost type. -/
theorem Setting.Uniform.exists_merges (h : setting.Uniform tree) {path : ModelPath}
    {fields : List MergedField} {merged : MergedField}
    (hFields : setting.treeFields path tree = .ok fields) (hMerged : merged ∈ fields)
    {location : Location} (hLocation : location ∈ merged.locations) :
    ∃ occurrence, setting.Merges tree occurrence ∧
      location = setting.document.locate occurrence.node.position ∧
      occurrence.innermost? = some merged.field.annotation.innermost.name := by
  obtain ⟨occurrences, hMerge, hMerges⟩ := Setting.merged_of_treeFields hFields
  have hFrom := hMerge.each merged hMerged
  rw [hFrom.locations] at hLocation
  obtain ⟨node, hNode, rfl⟩ := List.mem_map.mp hLocation
  obtain ⟨occurrence, hMem, hKey, rfl⟩ := (hFrom.mem_nodes_iff node).mp hNode
  obtain ⟨first, hFirst, hFirstKey, hField, _⟩ := hFrom.head_node
  obtain ⟨field, hSelected⟩ := hMerge.selected occurrence hMem
  have hType : occurrence.innermost? = some field.annotation.innermost.name := by
    rw [Occurrence.innermost?, hSelected, Option.map_some]
  have hFirstType : first.innermost? = some merged.field.annotation.innermost.name := by
    rw [Occurrence.innermost?, hField, Option.map_some]
  have hSame := h occurrence first ((hMerges _).mp hMem) ((hMerges _).mp hFirst)
    (hKey.trans hFirstKey.symm) _ _ hType hFirstType
  exact ⟨occurrence, (hMerges _).mp hMem, rfl, hSame ▸ hType⟩

/-- Among agreeing requests, fields that are merged in uniform trees have one innermost type if
they share a node. -/
theorem Agreeing.innermost_eq (hSetting : setting.Admissible)
    (hKnown : ∀ request ∈ requests, request.Known setting requests) (hAgreeing : Agreeing requests)
    {tree tree' : FragmentTree} (hTree : Rooted setting requests tree)
    (hTree' : Rooted setting requests tree') (hUniform : setting.Uniform tree)
    (hUniform' : setting.Uniform tree') {path path' : ModelPath} {fields fields' : List MergedField}
    {merged merged' : MergedField} (hFields : setting.treeFields path tree = .ok fields)
    (hMerged : merged ∈ fields) (hFields' : setting.treeFields path' tree' = .ok fields')
    (hMerged' : merged' ∈ fields') {location : Location} (hLocation : location ∈ merged.locations)
    (hLocation' : location ∈ merged'.locations) :
    merged.field.annotation.innermost.name = merged'.field.annotation.innermost.name := by
  obtain ⟨occurrence, hMerges, hNode, hType⟩ := hUniform.exists_merges hFields hMerged hLocation
  obtain ⟨occurrence', hMerges', hNode', hType'⟩ :=
    hUniform'.exists_merges hFields' hMerged' hLocation'
  have hInside := hTree.mem_nodes_of_holds hKnown hMerges.holds
  have hInside' := hTree'.mem_nodes_of_holds hKnown hMerges'.holds
  have hPosition := Document.locate_inj (hNode.symm.trans hNode')
  have hSelection := hSetting.positions.node_eq hInside hInside' hPosition
  have hSame := hAgreeing.type_eq hSetting hKnown hTree hTree' hMerges.holds hMerges'.holds
    (FieldNode.selection_inj hSelection)
  rw [← hSame, hType] at hType'
  exact Option.some.inj hType'

namespace History

/-- A new request agrees with those before it. -/
theorem declared_eq_of_made (hSetting : setting.Admissible)
    (hUniform : GrowUniformly setting parents)
    (h : History setting parents prior) (hAgreeing : Agreeing prior)
    (hMade : Made setting parents prior request)
    (hNew : ∀ earlier ∈ prior, earlier.locations ≠ request.locations) (hOther : other ∈ prior)
    {location : Location} (hLocation : location ∈ request.locations)
    (hShared : location ∈ other.locations) : request.declared = other.declared := by
  have hKnown := h.known hSetting
  obtain ⟨before, hBefore, hMadeOther⟩ := h.made hOther
  cases hMade with
  | operation hOperation hLocations =>
      rw [hLocations, List.mem_singleton] at hLocation
      cases hMadeOther with
      | operation _ hLocations' =>
          rw [hLocations', List.mem_singleton, hLocation] at hShared
          exact absurd (by rw [hLocations', hLocations, hShared]) (hNew other hOther)
      | field _ hPrior hGrows hFields hMerged hAsks =>
          have hRooted :=
            (hKnown _ (hBefore hPrior)).rooted_of_grows hSetting (hBefore hPrior) hGrows
          rw [hAsks.locations, hLocation] at hShared
          exact absurd hShared
            (hRooted.operation_not_mem hSetting hKnown hFields hMerged hOperation)
  | field hActive hPrior hGrows hFields hMerged hAsks =>
      have hRooted := (hKnown _ hPrior).rooted_of_grows hSetting hPrior hGrows
      rw [hAsks.locations] at hLocation
      cases hMadeOther with
      | operation hOperation hLocations' =>
          rw [hLocations', List.mem_singleton] at hShared
          rw [hShared] at hLocation
          exact absurd hLocation
            (hRooted.operation_not_mem hSetting hKnown hFields hMerged hOperation)
      | field hActive' hPrior' hGrows' hFields' hMerged' hAsks' =>
          have hRooted' :=
            (hKnown _ (hBefore hPrior')).rooted_of_grows hSetting (hBefore hPrior') hGrows'
          rw [hAsks'.locations] at hShared
          have hSame := hAgreeing.innermost_eq hSetting hKnown hRooted hRooted'
            (hUniform _ hActive _ hGrows) (hUniform _ hActive' _ hGrows') hFields hMerged hFields'
            hMerged' hLocation hShared
          have hType := hAsks.declared
          rw [hSame, hAsks'.declared] at hType
          exact (Option.some.inj hType).symm

theorem agreeing (hSetting : setting.Admissible)
    (hUniform : GrowUniformly setting parents)
    (h : History setting parents requests) : Agreeing requests := by
  induction h with
  | nil => exact fun _ hMem => absurd hMem List.not_mem_nil
  | snoc hPrior hMade hNew ih =>
      intro request hRequest other hOther location hLocation hShared
      rcases List.mem_append.mp hRequest with hRequest | hRequest <;>
        rcases List.mem_append.mp hOther with hOther | hOther
      · exact ih request hRequest other hOther location hLocation hShared
      · rw [List.mem_singleton.mp hOther] at hShared ⊢
        exact (declared_eq_of_made hSetting hUniform hPrior ih hMade hNew hRequest hShared
          hLocation).symm
      · rw [List.mem_singleton.mp hRequest] at hLocation ⊢
        exact declared_eq_of_made hSetting hUniform hPrior ih hMade hNew hOther hLocation hShared
      · rw [List.mem_singleton.mp hRequest, List.mem_singleton.mp hOther]

end History

/-- All that a tree in a grown one holds is merged in it. -/
theorem Setting.Grown.merges_within (hSetting : setting.Admissible) {type scope : SchemaType}
    {selections : List Selection} {trees : List FragmentTree}
    (h : setting.Grown type scope selections trees) (hScope : setting.Knows scope)
    (hNodes : selections ⊆ setting.document.nodes) (hTree : tree ∈ trees)
    {subtree : FragmentTree} (hWithin : FragmentTree.Within subtree tree)
    (hHolds : subtree.Holds occurrence) : setting.Merges subtree occurrence := by
  induction hWithin generalizing scope selections trees with
  | self => exact h.merges_of_holds hSetting hScope hNodes hTree hHolds
  | inner hChild _ ih =>
      obtain ⟨_, hOpener, hOpens, _⟩ := h.opened hTree
      exact ih (h.inner hTree) (hOpens.knows hSetting hScope)
        (hOpens.subset_nodes (hNodes hOpener)) hChild hHolds

/-- The field nodes of a return tree are reached from the selections of the request. -/
def Request.Faithful (setting : Setting) (request : Request) : Prop :=
  ∀ occurrence, request.returnTree.Holds occurrence →
    setting.Reaches request.declared request.declared request.selections occurrence

/-- Where the return tree is faithful, all that a tree of the request holds is merged in it. -/
theorem Request.Grows.merges_of_holds (hSetting : setting.Admissible)
    (hKnown : request.Known setting requests) (hFaithful : request.Faithful setting)
    (h : request.Grows setting tree) (hHolds : tree.Holds occurrence) :
    setting.Merges tree occurrence := by
  cases h with
  | @whole collected bases hCollected hReturn =>
      obtain ⟨_, _, hGathering⟩ :=
        Setting.gathering_of_collectIn hSetting hKnown.declared hKnown.nodes hCollected
      have hGrown : setting.Grown request.declared request.declared request.selections
          collected.fragments := hGathering.grown
      obtain ⟨more, hMore, _⟩ := Build.addTrees_spec collected.fragments bases
      rcases (hGrown.reaches_iff hSetting hKnown.declared hKnown.nodes).mp
        (hFaithful occurrence (hReturn ▸ hHolds)) with hOwn | ⟨fragment, hFragment, hInner⟩
      · exact .own hOwn
      · obtain ⟨selection, hSelection, hFound⟩ :=
          hGrown.find?_leadsTo hSetting hKnown.nodes hFragment more
        rw [← hMore] at hFound
        exact .inner hSelection hFound
          (hGrown.merges_of_holds hSetting hKnown.declared hKnown.nodes hFragment hInner)
  | fragment _ hCollected hTree hWithin =>
      obtain ⟨_, _, hGathering⟩ :=
        Setting.gathering_of_collectIn hSetting hKnown.declared hKnown.nodes hCollected
      exact hGathering.grown.merges_within hSetting hKnown.declared hKnown.nodes hTree hWithin
        hHolds

/-- A return tree is faithful when the bases that it takes in hold nothing else. -/
theorem Request.Returns.faithful (hSetting : setting.Admissible)
    (hKnown : request.Known setting requests) {bases : List FragmentTree}
    (h : request.Returns setting bases)
    (hBases : ∀ base ∈ bases, ∀ occurrence, base.Holds occurrence →
      setting.Reaches request.declared request.declared request.selections occurrence) :
    request.Faithful setting := by
  obtain ⟨collected, hCollected, hTree⟩ := h
  obtain ⟨_, _, hGathering⟩ :=
    Setting.gathering_of_collectIn hSetting hKnown.declared hKnown.nodes hCollected
  intro occurrence hHolds
  have hReaches : setting.Reaches request.declared request.declared request.selections occurrence ↔
      (occurrence.type = request.declared ∧ occurrence.node.selection ∈ request.selections) ∨
        ∃ tree ∈ collected.fragments, tree.Holds occurrence :=
    hGathering.grown.reaches_iff hSetting hKnown.declared hKnown.nodes
  rw [hTree, FragmentTree.holds_hoist_iff, FragmentTree.holds_iff] at hHolds
  rcases hHolds with hSelects | ⟨child, hChild, hInner⟩
  · exact hReaches.mpr (.inl hSelects)
  · rcases Build.mem_of_mem_addTrees hChild with hFragment | hBase
    · exact hReaches.mpr (.inr ⟨child, hFragment, hInner⟩)
    · exact hBases child hBase occurrence hInner

/-- The nodes of a field in a child are nodes of the field in the tree, if the tree merges all that
the child does. -/
theorem Setting.locations_subset {child : FragmentTree}
    (hInside : ∀ occurrence, setting.Merges child occurrence → setting.Merges tree occurrence)
    {path path' : ModelPath} {fields fields' : List MergedField} {merged merged' : MergedField}
    (hFields : setting.treeFields path tree = .ok fields) (hMerged : merged ∈ fields)
    (hFields' : setting.treeFields path' child = .ok fields') (hMerged' : merged' ∈ fields')
    (hKey : merged'.responseKey = merged.responseKey) : merged'.locations ⊆ merged.locations := by
  obtain ⟨occurrences, hMerge, hMerges⟩ := merged_of_treeFields hFields
  obtain ⟨occurrences', hMerge', hMerges'⟩ := merged_of_treeFields hFields'
  have hFrom := hMerge.each merged hMerged
  have hFrom' := hMerge'.each merged' hMerged'
  rw [hFrom.locations, hFrom'.locations]
  refine List.map_subset _ fun node hNode => ?_
  obtain ⟨occurrence, hMem, hSame, hNode⟩ := (hFrom'.mem_nodes_iff node).mp hNode
  refine (hFrom.mem_nodes_iff node).mpr ⟨occurrence, ?_, hSame.trans hKey, hNode⟩
  exact (hMerges _).mpr (hInside _ ((hMerges' _).mp hMem))

theorem Setting.exists_location {path : ModelPath} {fields : List MergedField}
    {merged : MergedField} (hFields : setting.treeFields path tree = .ok fields)
    (hMerged : merged ∈ fields) : ∃ location, location ∈ merged.locations := by
  obtain ⟨occurrences, hMerge, _⟩ := merged_of_treeFields hFields
  have hFrom := hMerge.each merged hMerged
  obtain ⟨first, _, _, _, hFirst⟩ := hFrom.head_node
  rw [hFrom.locations]
  exact ⟨_, List.mem_map_of_mem (List.mem_of_mem_head? hFirst)⟩

/-- In a uniform run all return trees are faithful. -/
theorem History.faithful (hSetting : setting.Admissible)
    (hUniform : GrowUniformly setting parents)
    (h : History setting parents requests) : ∀ request ∈ requests, request.Faithful setting := by
  induction h with
  | nil => exact fun _ hMem => absurd hMem List.not_mem_nil
  | @snoc prior request hPrior hMade hNew ih =>
      intro other hOther
      rcases List.mem_append.mp hOther with hOld | hLast
      · exact ih other hOld
      rw [List.mem_singleton.mp hLast]
      have hAll : History setting parents (prior ++ [request]) := .snoc hPrior hMade hNew
      have hKnown := hAll.known hSetting
      have hAgreeing := hAll.agreeing hSetting hUniform
      have hMem : request ∈ prior ++ [request] := by simp
      cases hMade with
      | operation _ _ _ _ _ hReturns =>
          exact hReturns.faithful hSetting (hKnown _ hMem) (by simp)
      | field hActive hParent hGrows hFields hMerged hAsks hBases hReturns =>
          refine hReturns.faithful hSetting (hKnown _ hMem) fun base hBase occurrence hHolds => ?_
          obtain ⟨earlier, hEarlier, ⟨child, hChild, fields', hFields', merged', hMerged', hKey,
            hLocations⟩, rfl⟩ := hBases.from_prior base hBase
          have hMemEarlier : earlier ∈ prior ++ [request] := List.mem_append_left _ hEarlier
          -- The base was requested for some of the nodes that the request is for.
          have hInside : ∀ occurrence, setting.Merges child occurrence →
              setting.Merges _ occurrence := fun occurrence hMerges =>
            hGrows.merges_of_holds hSetting (hPrior.known hSetting _ hParent) (ih _ hParent)
              (hMerges.holds.of_within (.inner hChild (.self _)))
          have hSubset : earlier.locations ⊆ request.locations := by
            rw [hLocations, hAsks.locations]
            exact Setting.locations_subset hInside hFields hMerged hFields' hMerged' hKey
          have hDeclared : earlier.declared = request.declared := by
            obtain ⟨location, hLocation⟩ := Setting.exists_location hFields' hMerged'
            rw [← hLocations] at hLocation
            exact hAgreeing _ hMemEarlier _ hMem location hLocation (hSubset hLocation)
          have hSelections := (hKnown _ hMemEarlier).selections_subset hSetting.positions
            (hKnown _ hMem) hSubset
          have hReaches := ih earlier hEarlier occurrence hHolds
          rw [hDeclared] at hReaches
          exact hReaches.mono hSetting (fun _ _ hApplies => hApplies) (hKnown _ hMem).declared
            hSelections

/-- The field node that a selection is. -/
def GraphQL.Selection.fieldNode? : Selection → Option FieldNode
  | .field position label name selections => some ⟨position, label, name, selections⟩
  | _ => none

/-- Field nodes of one response key select fields of one innermost type, on whatever types of the
schema. -/
def Setting.Unambiguous (setting : Setting) : Prop :=
  ∀ first ∈ setting.document.nodes.filterMap Selection.fieldNode?,
    ∀ second ∈ setting.document.nodes.filterMap Selection.fieldNode?,
      first.responseKey = second.responseKey →
      ∀ type ∈ setting.schema.types.values, ∀ type' ∈ setting.schema.types.values,
        ∀ name ∈ (Occurrence.mk type first).innermost?,
          ∀ name' ∈ (Occurrence.mk type' second).innermost?, name = name'

instance (setting : Setting) : Decidable setting.Unambiguous :=
  inferInstanceAs (Decidable (∀ _ ∈ _, _))

/-- Nothing but uniform trees comes about where response keys are unambiguous. -/
theorem Setting.Unambiguous.growUniformly (h : setting.Unambiguous)
    (hSetting : setting.Admissible)
    (hKnown : ∀ request ∈ requests, request.Known setting requests)
    (hParents : parents ⊆ requests) : GrowUniformly setting parents := by
  intro request hRequest tree hGrows first second hFirst hSecond hKey type type' hType hType'
  have hMember := hParents hRequest
  have hRooted := (hKnown request hMember).rooted_of_grows hSetting hMember hGrows
  have hMet : ∀ occurrence, setting.Merges tree occurrence →
      occurrence.node ∈ setting.document.nodes.filterMap Selection.fieldNode? ∧
        occurrence.type ∈ setting.schema.types.values := by
    intro occurrence hMerges
    obtain ⟨subtree, hWithin, hOn, hMem⟩ := hMerges.holds
    have hHead := hRooted subtree hWithin
    have hKnows : setting.Knows subtree.condition := hHead.knows hSetting hKnown
    refine ⟨List.mem_filterMap.mpr ⟨_, hHead.subset_nodes hKnown hMem, rfl⟩, ?_⟩
    rw [hOn]
    exact OrderedMap.mem_values_of_get? hKnows
  exact h _ (hMet first hFirst).1 _ (hMet second hSecond).1 hKey _ (hMet first hFirst).2 _
    (hMet second hSecond).2 type hType type' hType'

end ResponseModels
