import ResponseModels.Model.Session
import ResponseModels.Proofs.Document.Standing
import ResponseModels.Proofs.Model.Names
import ResponseModels.Proofs.Selection.Collecting
import ResponseModels.Proofs.Selection.Flattening

/-! The requests of a run, in the order in which they were made. A request comes from an operation
or from a field that was merged in a tree of an earlier request, and its return tree takes in
return trees of requests before it. In all these trees the key of a tree tells the tree. -/
namespace ResponseModels

open GraphQL

namespace Build

variable {trees extra : List FragmentTree} {tree : FragmentTree}

/-- Added trees stand behind those there were, and none of the trees to be added goes missing by
its key. -/
theorem addTrees_spec (trees extra : List FragmentTree) :
    ∃ more, addTrees trees extra = trees ++ more ∧ more ⊆ extra ∧
      ∀ tree ∈ extra, ∃ kept ∈ trees ++ more, kept.key = tree.key :=
  Association.keepFirst_spec FragmentTree.key trees extra

theorem mem_of_mem_addTrees (h : tree ∈ addTrees trees extra) : tree ∈ trees ∨ tree ∈ extra := by
  obtain ⟨more, hMore, hSubset, _⟩ := addTrees_spec trees extra
  rw [hMore] at h
  rcases List.mem_append.mp h with hOld | hNew
  · exact .inl hOld
  · exact .inr (hSubset hNew)

end Build

namespace Request

variable {setting : Setting} {request : Request}

/-- The tree of the whole selection set, with some trees in it. -/
def whole (request : Request) (children : List FragmentTree) : FragmentTree :=
  .node .synthetic (.selection request.locations) request.modelName request.declared
    request.selections children

/-- The types at which the selections of a request are collected: the declared one, and the object
types that the value may have. -/
def SeenAt (setting : Setting) (request : Request) (type : SchemaType) : Prop :=
  type = request.declared ∨
    ∃ object ∈ setting.schema.possibleTypes request.declared.name, type = .object object

/-- The trees that come about by a request itself: its whole selection set, unless that gives
way, and the fragments that are collected from its selections. Trees that it takes over from
other requests are not among them. -/
inductive Grows (setting : Setting) (request : Request) : FragmentTree → Prop
  | whole {collected : Collected} {bases : List FragmentTree} :
    setting.collect request.declared request.selections request.path = .ok collected →
    request.returnTree = request.whole (Build.addTrees collected.fragments bases) →
    Grows setting request (request.whole (Build.addTrees collected.fragments bases))
  | fragment {type : SchemaType} {collected : Collected} {tree subtree : FragmentTree} :
    request.SeenAt setting type →
    setting.collectIn request.declared type request.selections request.path = .ok collected →
    tree ∈ collected.fragments → subtree.Within tree → Grows setting request subtree

/-- The request asks for what is selected beneath a merged field. -/
structure Asks (setting : Setting) (request : Request) (merged : MergedField) : Prop where
  locations : request.locations = merged.locations
  selections : request.selections = merged.nested
  declared : setting.schema.type? merged.field.annotation.innermost.name = some request.declared
  composite : request.declared.isComposite = true
  source : request.source =
    .field merged.field.name merged.field.parent.name merged.responseKey
  operation : request.operation = none

/-- The request asks for a field that is merged in a tree of the parent. -/
def AskedIn (setting : Setting) (parent request : Request) : Prop :=
  ∃ tree path fields, parent.Grows setting tree ∧ setting.treeFields path tree = .ok fields ∧
    ∃ merged ∈ fields, request.Asks setting merged

/-- The return tree is that of the selection set at its declared type, with the trees of some
bases added to it. -/
def Returns (setting : Setting) (request : Request) (bases : List FragmentTree) : Prop :=
  ∃ collected, setting.collect request.declared request.selections request.path = .ok collected ∧
    request.returnTree =
      (request.whole (Build.addTrees collected.fragments bases)).hoist request.declared.name

/-- The earlier request was made for a field that a child of the tree has under the given response
key. -/
def Overridden (setting : Setting) (path : ModelPath) (tree : FragmentTree) (key : String)
    (earlier : Request) : Prop :=
  ∃ child ∈ tree.children, ∃ fields, setting.treeFields path child = .ok fields ∧
    ∃ merged ∈ fields, merged.responseKey = key ∧ earlier.locations = merged.locations

/-- The bases are the return trees of the overridden requests among the earlier ones. -/
structure TakesOver (setting : Setting) (prior : List Request) (path : ModelPath)
    (tree : FragmentTree) (key : String) (bases : List FragmentTree) : Prop where
  from_prior : ∀ base ∈ bases, ∃ earlier ∈ prior,
    Overridden setting path tree key earlier ∧ base = earlier.returnTree
  all_prior : ∀ earlier ∈ prior, Overridden setting path tree key earlier →
    earlier.returnTree.key ∈ bases.map FragmentTree.key

end Request

/-- How a request comes about after those before it, while one of `parents` is being modelled. -/
inductive Made (setting : Setting) (parents prior : List Request) (request : Request) : Prop
  | operation {operation : Operation} :
    operation ∈ setting.document.operations →
    request.locations = [setting.document.locate operation.position] →
    request.selections = operation.selections →
    setting.Knows request.declared →
    (∀ details, request.operation = some details →
      details.location = setting.document.locate operation.position) →
    request.Returns setting [] →
    Made setting parents prior request
  | field {parent : Request} {tree : FragmentTree} {path : ModelPath} {fields : List MergedField}
      {merged : MergedField} {bases : List FragmentTree} :
    parent ∈ parents → parent ∈ prior → parent.Grows setting tree →
    setting.treeFields path tree = .ok fields → merged ∈ fields →
    request.Asks setting merged →
    Request.TakesOver setting prior path tree merged.responseKey bases →
    request.Returns setting bases →
    Made setting parents prior request

/-- The requests of a run so far, the oldest first. No two ask for the same nodes. -/
inductive History (setting : Setting) (parents : List Request) : List Request → Prop
  | nil : History setting parents []
  | snoc {prior : List Request} {request : Request} :
    History setting parents prior → Made setting parents prior request →
    (∀ earlier ∈ prior, earlier.locations ≠ request.locations) →
    History setting parents (prior ++ [request])

variable {setting : Setting} {parents requests : List Request} {request : Request}
  {tree : FragmentTree}

theorem Made.mono {others : List Request} (hMore : parents ⊆ others) {prior : List Request}
    (h : Made setting parents prior request) : Made setting others prior request := by
  cases h with
  | operation hOperation hLocations hSelections hKnows hDetails hReturns =>
      exact .operation hOperation hLocations hSelections hKnows hDetails hReturns
  | field hParent hPrior hGrows hFields hMerged hAsks hBases hReturns =>
      exact .field (hMore hParent) hPrior hGrows hFields hMerged hAsks hBases hReturns

theorem Made.returns {prior : List Request} (h : Made setting parents prior request) :
    ∃ bases, request.Returns setting bases := by
  cases h with
  | operation _ _ _ _ _ hReturns => exact ⟨_, hReturns⟩
  | field _ _ _ _ _ _ _ hReturns => exact ⟨_, hReturns⟩

theorem History.mono {others : List Request} (hMore : parents ⊆ others)
    (h : History setting parents requests) : History setting others requests := by
  induction h with
  | nil => exact .nil
  | snoc _ hMade hNew ih => exact .snoc ih (hMade.mono hMore) hNew

/-- Every request came about after those before it. -/
theorem History.made_of_append {prior rest : List Request}
    (h : History setting parents (prior ++ request :: rest)) :
    Made setting parents prior request := by
  generalize hAll : prior ++ request :: rest = all at h
  induction h generalizing rest with
  | nil => simp at hAll
  | @snoc earlier last _ hMade _ ih =>
      rcases List.eq_nil_or_concat rest with rfl | ⟨front, back, rfl⟩
      · obtain ⟨hPrior, hLast⟩ := List.append_inj' hAll rfl
        rw [hPrior, List.head_eq_of_cons_eq hLast]
        exact hMade
      · rw [List.concat_eq_append, ← List.cons_append, ← List.append_assoc] at hAll
        exact ih (List.append_inj' hAll rfl).1

theorem History.made (h : History setting parents requests) (hRequest : request ∈ requests) :
    ∃ prior, prior ⊆ requests ∧ Made setting parents prior request := by
  obtain ⟨prior, rest, rfl⟩ := List.append_of_mem hRequest
  exact ⟨prior, List.subset_append_left _ _, h.made_of_append⟩

theorem Request.Returns.condition_name {bases : List FragmentTree}
    (h : request.Returns setting bases) :
    request.returnTree.condition.name = request.declared.name := by
  obtain ⟨collected, _, hTree⟩ := h
  rw [hTree]
  exact FragmentTree.condition_name_hoist _ _ rfl

/-- The whole selection set of a request as a branch. -/
def Request.branch (request : Request) : Branch :=
  ⟨.synthetic, .selection request.locations, request.modelName, request.declared,
    request.selections⟩

/-- The branches of the trees in a run: those of whole requests, and those that are opened in
them, at any depth. -/
inductive Head (setting : Setting) (requests : List Request) : Branch → Prop
  | requested {request : Request} : request ∈ requests → Head setting requests request.branch
  | opened {outer branch : Branch} {selection : Selection} :
    Head setting requests outer → selection ∈ outer.selections →
    setting.Opens outer.condition selection branch → Head setting requests branch

/-- A tree all of whose nodes are fragments or whole requests. -/
def Rooted (setting : Setting) (requests : List Request) (tree : FragmentTree) : Prop :=
  ∀ subtree, FragmentTree.Within subtree tree → Head setting requests subtree.branch

theorem Head.mono {others : List Request} (hMore : requests ⊆ others) {branch : Branch}
    (h : Head setting requests branch) : Head setting others branch := by
  induction h with
  | requested hRequest => exact .requested (hMore hRequest)
  | opened _ hMem hOpens ih => exact .opened ih hMem hOpens

theorem Head.origin_cases {branch : Branch} (h : Head setting requests branch) :
    (∃ location name, branch.origin = .namedFragment location name) ∨
      (∃ location condition, branch.origin = .inlineFragment location condition) ∨
        ∃ locations, branch.origin = .selection locations := by
  cases h with
  | opened _ _ hOpens =>
      cases hOpens with
      | spread => exact .inl ⟨_, _, rfl⟩
      | inlineOn => exact .inr (.inl ⟨_, _, rfl⟩)
      | inline => exact .inr (.inl ⟨_, _, rfl⟩)
  | requested => exact .inr (.inr ⟨_, rfl⟩)

namespace Rooted

theorem mono {others : List Request} (hMore : requests ⊆ others)
    (h : Rooted setting requests tree) : Rooted setting others tree :=
  fun subtree hWithin => (h subtree hWithin).mono hMore

theorem within {subtree : FragmentTree} (h : Rooted setting requests tree)
    (hWithin : FragmentTree.Within subtree tree) : Rooted setting requests subtree :=
  fun inner hInner => h inner (hInner.trans hWithin)

theorem node (hHead : Head setting requests tree.branch)
    (hChildren : ∀ child ∈ tree.children, Rooted setting requests child) :
    Rooted setting requests tree := by
  intro subtree hWithin
  rcases FragmentTree.within_iff.mp hWithin with rfl | ⟨child, hChild, hInner⟩
  · exact hHead
  · exact hChildren child hChild subtree hInner

end Rooted

/-- Trees that are grown from a branch are rooted with it. -/
theorem Setting.Grown.rooted {type : SchemaType} {outer : Branch} {trees : List FragmentTree}
    (h : setting.Grown type outer.condition outer.selections trees)
    (hOuter : Head setting requests outer) (hTree : tree ∈ trees) :
    Rooted setting requests tree := by
  induction tree using FragmentTree.induct generalizing outer trees with
  | node tree ih =>
      obtain ⟨opener, hOpener, hOpens, _⟩ := h.opened hTree
      have hHead : Head setting requests tree.branch := .opened hOuter hOpener hOpens
      exact .node hHead fun child hChild => ih child hChild (h.inner hTree) hHead hChild

/-- What is known of every request of a run. -/
structure Request.Known (setting : Setting) (requests : List Request) (request : Request) :
    Prop where
  declared : setting.Knows request.declared
  bodies : ∃ bodies : List (Position × List Selection),
    (∀ body ∈ bodies, setting.document.Requestable body) ∧
    request.locations = bodies.map (fun body => setting.document.locate body.1) ∧
    request.selections = bodies.flatMap Prod.snd
  operated : ∀ details, request.operation = some details → ∃ position,
    details.location = setting.document.locate position
  rooted : Rooted setting requests request.returnTree

theorem Request.Known.mono {others : List Request} (hMore : requests ⊆ others)
    (h : request.Known setting requests) : request.Known setting others :=
  ⟨h.declared, h.bodies, h.operated, h.rooted.mono hMore⟩

/-- The selections of a request are those of the nodes at its locations. -/
theorem Request.Known.mem_selections_iff (hPositions : setting.document.DistinctPositions)
    (h : request.Known setting requests) (selection : Selection) :
    selection ∈ request.selections ↔ ∃ body, setting.document.Requestable body ∧
      setting.document.locate body.1 ∈ request.locations ∧ selection ∈ body.2 := by
  obtain ⟨bodies, hBodies, hLocations, hSelections⟩ := h.bodies
  rw [hLocations, hSelections, List.mem_flatMap]
  constructor
  · rintro ⟨body, hBody, hMem⟩
    exact ⟨body, hBodies body hBody, List.mem_map.mpr ⟨body, hBody, rfl⟩, hMem⟩
  · rintro ⟨⟨position, inner⟩, hBody, hLocated, hMem⟩
    obtain ⟨⟨other, selections⟩, hOther, hSame⟩ := List.mem_map.mp hLocated
    cases Document.locate_inj hSame
    have hEq := hPositions.body_eq hBody.mem_bodies (hBodies _ hOther).mem_bodies
    exact ⟨_, hOther, hEq ▸ hMem⟩

theorem Request.Known.selections_subset (hPositions : setting.document.DistinctPositions)
    (h : request.Known setting requests) {other : Request} (hOther : other.Known setting requests)
    (hSubset : request.locations ⊆ other.locations) : request.selections ⊆ other.selections := by
  intro selection hSelection
  obtain ⟨body, hBody, hLocated, hMem⟩ := (h.mem_selections_iff hPositions _).mp hSelection
  exact (hOther.mem_selections_iff hPositions _).mpr ⟨body, hBody, hSubset hLocated, hMem⟩

theorem Request.Known.nodes (h : request.Known setting requests) :
    request.selections ⊆ setting.document.nodes := by
  obtain ⟨bodies, hBodies, _, hSelections⟩ := h.bodies
  intro selection hSelection
  rw [hSelections, List.mem_flatMap] at hSelection
  obtain ⟨body, hBody, hMem⟩ := hSelection
  exact Document.mem_nodes_of_body (hBodies body hBody).mem_bodies hMem

theorem Request.Known.located (h : request.Known setting requests) :
    ∀ location ∈ request.locations, ∃ body, setting.document.Requestable body ∧
      location = setting.document.locate body.1 := by
  obtain ⟨bodies, hBodies, hLocations, _⟩ := h.bodies
  intro location hLocation
  rw [hLocations] at hLocation
  obtain ⟨body, hBody, rfl⟩ := List.mem_map.mp hLocation
  exact ⟨body, hBodies body hBody, rfl⟩

theorem Head.subset_nodes (hKnown : ∀ request ∈ requests, request.Known setting requests)
    {branch : Branch} (h : Head setting requests branch) :
    branch.selections ⊆ setting.document.nodes := by
  induction h with
  | requested hRequest => exact (hKnown _ hRequest).nodes
  | opened _ hMem hOpens ih => exact hOpens.subset_nodes (ih hMem)

theorem Head.knows (hSetting : setting.Admissible)
    (hKnown : ∀ request ∈ requests, request.Known setting requests) {branch : Branch}
    (h : Head setting requests branch) : setting.Knows branch.condition := by
  induction h with
  | requested hRequest => exact (hKnown _ hRequest).declared
  | opened _ _ hOpens ih => exact hOpens.knows hSetting ih

theorem Rooted.mem_nodes_of_holds
    (hKnown : ∀ request ∈ requests, request.Known setting requests)
    (h : Rooted setting requests tree) {occurrence : Occurrence}
    (hHolds : tree.Holds occurrence) : occurrence.node.selection ∈ setting.document.nodes := by
  obtain ⟨subtree, hWithin, _, hMem⟩ := hHolds
  exact (h subtree hWithin).subset_nodes hKnown hMem

/-- The trees that a known request grows are rooted. -/
theorem Request.Known.rooted_of_grows (hSetting : setting.Admissible)
    (h : request.Known setting requests) (hRequest : request ∈ requests)
    (hGrows : request.Grows setting tree) : Rooted setting requests tree := by
  cases hGrows with
  | whole _ hWhole =>
      rw [← hWhole]
      exact h.rooted
  | fragment _ hCollected hTree hWithin =>
      obtain ⟨_, _, hGathering⟩ :=
        Setting.gathering_of_collectIn hSetting h.declared h.nodes hCollected
      have hGrown : setting.Grown _ request.branch.condition request.branch.selections _ :=
        hGathering.grown
      exact (hGrown.rooted (.requested hRequest) hTree).within hWithin

/-- The nodes and the locations of a field that was merged in a tree of nodes of the document. -/
theorem Setting.nodes_of_merged
    (hInside : ∀ occurrence, tree.Holds occurrence →
      occurrence.node.selection ∈ setting.document.nodes)
    {path : ModelPath} {fields : List MergedField}
    (hFields : setting.treeFields path tree = .ok fields) {merged : MergedField}
    (hMerged : merged ∈ fields) :
    (∀ node ∈ merged.nodes, node.selection ∈ setting.document.nodes) ∧
      merged.locations = merged.nodes.map (setting.document.locate ·.position) := by
  obtain ⟨occurrences, hMerge, hMem⟩ := Setting.merged_of_treeFields hFields
  have hFrom := hMerge.each merged hMerged
  refine ⟨?_, hFrom.locations⟩
  intro node hNode
  obtain ⟨occurrence, hOccurrence, _, rfl⟩ := (hFrom.mem_nodes_iff node).mp hNode
  exact hInside occurrence ((hMem occurrence).mp hOccurrence).holds

theorem Rooted.of_merged (hKnown : ∀ request ∈ requests, request.Known setting requests)
    (h : Rooted setting requests tree) {path : ModelPath} {fields : List MergedField}
    (hFields : setting.treeFields path tree = .ok fields) {merged : MergedField}
    (hMerged : merged ∈ fields) :
    (∀ node ∈ merged.nodes, node.selection ∈ setting.document.nodes) ∧
      merged.locations = merged.nodes.map (setting.document.locate ·.position) :=
  Setting.nodes_of_merged (fun _ hHolds => h.mem_nodes_of_holds hKnown hHolds) hFields hMerged

/-- The locations of a merged field are those of field nodes, not of operations. -/
theorem Rooted.operation_not_mem (hSetting : setting.Admissible)
    (hKnown : ∀ request ∈ requests, request.Known setting requests)
    (h : Rooted setting requests tree) {path : ModelPath} {fields : List MergedField}
    (hFields : setting.treeFields path tree = .ok fields) {merged : MergedField}
    (hMerged : merged ∈ fields) {operation : Operation}
    (hOperation : operation ∈ setting.document.operations) :
    setting.document.locate operation.position ∉ merged.locations := by
  intro hMem
  obtain ⟨hInside, hLocations⟩ := h.of_merged hKnown hFields hMerged
  rw [hLocations] at hMem
  obtain ⟨node, hNode, hSame⟩ := List.mem_map.mp hMem
  exact hSetting.positions.operation_ne_node hOperation (hInside node hNode)
    (Document.locate_inj hSame).symm

/-- The return tree of a new request is rooted in the requests up to it. -/
theorem Request.Returns.rooted (hSetting : setting.Admissible) {prior : List Request}
    (hDeclared : setting.Knows request.declared)
    (hNodes : request.selections ⊆ setting.document.nodes) {bases : List FragmentTree}
    (hBases : ∀ base ∈ bases, Rooted setting prior base)
    (h : request.Returns setting bases) :
    Rooted setting (prior ++ [request]) request.returnTree := by
  obtain ⟨collected, hCollected, hTree⟩ := h
  obtain ⟨_, _, hGathering⟩ :=
    Setting.gathering_of_collectIn hSetting hDeclared hNodes hCollected
  have hHead : Head setting (prior ++ [request]) request.branch :=
    .requested (List.mem_append_right _ (List.mem_singleton.mpr rfl))
  rw [hTree]
  refine Rooted.within ?_ (FragmentTree.within_hoist _ _)
  refine .node hHead fun child hChild => ?_
  rcases Build.mem_of_mem_addTrees hChild with hFragment | hBase
  · have hGrown : setting.Grown _ request.branch.condition request.branch.selections _ :=
      hGathering.grown
    exact hGrown.rooted hHead hFragment
  · exact (hBases child hBase).mono (List.subset_append_left _ _)

/-- A request for what is selected beneath a field is known after it was made. -/
theorem Request.Asks.known (hSetting : setting.Admissible) {prior : List Request}
    (hKnown : ∀ request ∈ prior, request.Known setting prior) {merged : MergedField}
    (hInside : ∀ node ∈ merged.nodes, node.selection ∈ setting.document.nodes)
    (hLocated : merged.locations = merged.nodes.map (setting.document.locate ·.position))
    {bases : List FragmentTree}
    (hBases : ∀ base ∈ bases, ∃ earlier ∈ prior, base = earlier.returnTree)
    (hAsks : request.Asks setting merged) (hReturns : request.Returns setting bases) :
    request.Known setting (prior ++ [request]) := by
  have hNodes : request.selections ⊆ setting.document.nodes := by
    intro selection hSelection
    rw [hAsks.selections] at hSelection
    obtain ⟨node, hNode, hMem⟩ := List.mem_flatMap.mp hSelection
    exact Document.mem_nodes_of_body (Document.body_of_node (hInside node hNode)) hMem
  have hDeclared := hSetting.knows_of_type? hAsks.declared
  refine ⟨hDeclared, ⟨merged.nodes.map fun node => (node.position, node.selections), ?_,
    ?_, ?_⟩, ?_, hReturns.rooted hSetting hDeclared hNodes ?_⟩
  · intro body hBody
    obtain ⟨node, hNode, rfl⟩ := List.mem_map.mp hBody
    exact .field (hInside node hNode)
  · rw [hAsks.locations, hLocated, List.map_map]
    rfl
  · rw [hAsks.selections, MergedField.nested, List.flatMap_map]
  · intro details hSome
    rw [hAsks.operation] at hSome
    cases hSome
  · intro base hBase
    obtain ⟨earlier, hEarlier, rfl⟩ := hBases base hBase
    exact (hKnown earlier hEarlier).rooted

/-- A request for the selection set of an operation is known after it was made. -/
theorem Request.known_of_operation (hSetting : setting.Admissible) {operation : Operation}
    (hOperation : operation ∈ setting.document.operations)
    (hLocations : request.locations = [setting.document.locate operation.position])
    (hSelections : request.selections = operation.selections)
    (hKnows : setting.Knows request.declared)
    (hDetails : ∀ details, request.operation = some details →
      details.location = setting.document.locate operation.position)
    (hReturns : request.Returns setting []) (prior : List Request) :
    request.Known setting (prior ++ [request]) := by
  have hNodes : request.selections ⊆ setting.document.nodes := by
    rw [hSelections]
    exact fun _ hMem => Document.mem_nodes_of_body (Document.body_of_operation hOperation) hMem
  refine ⟨hKnows, ⟨[(operation.position, operation.selections)], ?_, ?_, ?_⟩,
    fun details hSome => ⟨_, hDetails details hSome⟩,
    hReturns.rooted hSetting hKnows hNodes (by simp)⟩
  · intro body hBody
    rw [List.mem_singleton.mp hBody]
    exact .operation hOperation
  · rw [hLocations, List.map_singleton]
  · rw [hSelections, List.flatMap_singleton]

/-- With a known request that comes last all requests stay known. -/
theorem Request.known_concat {prior : List Request}
    (hKnown : ∀ request ∈ prior, request.Known setting prior)
    (h : request.Known setting (prior ++ [request])) :
    ∀ other ∈ prior ++ [request], other.Known setting (prior ++ [request]) := by
  intro other hOther
  rcases List.mem_append.mp hOther with hOld | hNew
  · exact (hKnown other hOld).mono (List.subset_append_left _ _)
  · rw [List.mem_singleton.mp hNew]
    exact h

/-- The branches that can stand in a tree: those of whole requests, and those that a selection of
the document opens on a type of the schema. -/
inductive Stands (setting : Setting) (requests : List Request) : Branch → Prop
  | requested {request : Request} : request ∈ requests → Stands setting requests request.branch
  | opened {scope : SchemaType} {selection : Selection} {branch : Branch} :
    setting.Knows scope → selection ∈ setting.document.nodes →
    setting.Opens scope selection branch → Stands setting requests branch

/-- A tree all of whose nodes are whole requests or fragments of the document. -/
def Planted (setting : Setting) (requests : List Request) (tree : FragmentTree) : Prop :=
  ∀ subtree, FragmentTree.Within subtree tree → Stands setting requests subtree.branch

theorem Stands.subset_nodes (hKnown : ∀ request ∈ requests, request.Known setting requests)
    {branch : Branch} (h : Stands setting requests branch) :
    branch.selections ⊆ setting.document.nodes := by
  cases h with
  | requested hRequest => exact (hKnown _ hRequest).nodes
  | opened _ hNode hOpens => exact hOpens.subset_nodes hNode

/-- Branches of one origin are the same, if no two requests ask for the same nodes. -/
theorem Stands.branch_eq (hSetting : setting.Admissible)
    (hNodup : (requests.map Request.locations).Nodup) {branch other : Branch}
    (hBranch : Stands setting requests branch) (hOther : Stands setting requests other)
    (hOrigin : branch.origin = other.origin) : branch = other := by
  cases hBranch with
  | opened hScope hNode hOpens =>
      cases hOther with
      | opened hScope' hNode' hOpens' =>
          exact hOpens.branch_eq hSetting hOpens' hScope hScope' hNode hNode' hOrigin
      | requested => cases hOpens <;> cases hOrigin
  | requested hRequest =>
      cases hOther with
      | opened _ _ hOpens' => cases hOpens' <;> cases hOrigin
      | requested hRequest' =>
          injection hOrigin with hSame
          rw [List.inj_on_of_nodup_map hNodup hRequest hRequest' hSame]

theorem Head.stands (hSetting : setting.Admissible)
    (hKnown : ∀ request ∈ requests, request.Known setting requests) {branch : Branch}
    (h : Head setting requests branch) : Stands setting requests branch := by
  cases h with
  | requested hRequest => exact .requested hRequest
  | opened hOuter hMem hOpens =>
      exact .opened (hOuter.knows hSetting hKnown) (hOuter.subset_nodes hKnown hMem) hOpens

theorem Rooted.planted (hSetting : setting.Admissible)
    (hKnown : ∀ request ∈ requests, request.Known setting requests)
    (h : Rooted setting requests tree) : Planted setting requests tree :=
  fun subtree hWithin => (h subtree hWithin).stands hSetting hKnown

/-- Lists agree when a function agrees on them that tells their items apart. -/
theorem eq_of_map_eq_map {α β : Type} {f : α → β} {items others : List α}
    (hInj : ∀ item ∈ items, ∀ other ∈ others, f item = f other → item = other)
    (h : items.map f = others.map f) : items = others := by
  induction items generalizing others with
  | nil => exact (List.map_eq_nil_iff.mp h.symm).symm
  | cons item rest ih =>
      obtain ⟨other, others, rfl, hFirst, hRest⟩ := List.map_eq_cons_iff.mp h.symm
      rw [hInj item List.mem_cons_self other List.mem_cons_self hFirst.symm]
      rw [ih (fun item hItem other hOther => hInj item (List.mem_cons_of_mem _ hItem) other
        (List.mem_cons_of_mem _ hOther)) hRest.symm]

namespace Planted

theorem within {subtree : FragmentTree} (h : Planted setting requests tree)
    (hWithin : FragmentTree.Within subtree tree) : Planted setting requests subtree :=
  fun inner hInner => h inner (hInner.trans hWithin)

theorem node (hBranch : Stands setting requests tree.branch)
    (hChildren : ∀ child ∈ tree.children, Planted setting requests child) :
    Planted setting requests tree := by
  intro subtree hWithin
  rcases FragmentTree.within_iff.mp hWithin with rfl | ⟨child, hChild, hInner⟩
  · exact hBranch
  · exact hChildren child hChild subtree hInner

/-- The key of a tree tells the tree. -/
theorem tree_eq (hSetting : setting.Admissible)
    (hNodup : (requests.map Request.locations).Nodup) {other : FragmentTree}
    (hTree : Planted setting requests tree) (hOther : Planted setting requests other)
    (hKey : tree.key = other.key) : tree = other := by
  induction tree using FragmentTree.induct generalizing other with
  | node tree ih =>
      rw [tree.key_eq, other.key_eq] at hKey
      injection hKey with hOrigin hKeys
      refine FragmentTree.eq_of_branch ?_ ?_
      · exact (hTree tree (.self _)).branch_eq hSetting hNodup (hOther other (.self _)) hOrigin
      · refine eq_of_map_eq_map ?_ hKeys
        intro child hChild child' hChild' hSame
        exact ih child hChild (hTree.within (.inner hChild (.self _)))
          (hOther.within (.inner hChild' (.self _))) hSame

theorem of_merged (hKnown : ∀ request ∈ requests, request.Known setting requests)
    (h : Planted setting requests tree) {path : ModelPath} {fields : List MergedField}
    (hFields : setting.treeFields path tree = .ok fields) {merged : MergedField}
    (hMerged : merged ∈ fields) :
    (∀ node ∈ merged.nodes, node.selection ∈ setting.document.nodes) ∧
      merged.locations = merged.nodes.map (setting.document.locate ·.position) := by
  refine Setting.nodes_of_merged (fun occurrence hHolds => ?_) hFields hMerged
  obtain ⟨subtree, hWithin, _, hMem⟩ := hHolds
  exact (h subtree hWithin).subset_nodes hKnown hMem

end Planted

/-- Trees that are grown from selections of the document are planted. -/
theorem Setting.Grown.planted (hSetting : setting.Admissible) {type scope : SchemaType}
    {selections : List Selection} {trees : List FragmentTree}
    (h : setting.Grown type scope selections trees) (hScope : setting.Knows scope)
    (hNodes : selections ⊆ setting.document.nodes) (hTree : tree ∈ trees) :
    Planted setting requests tree := by
  induction tree using FragmentTree.induct generalizing scope selections trees with
  | node tree ih =>
      obtain ⟨opener, hOpener, hOpens, _⟩ := h.opened hTree
      refine .node (.opened hScope (hNodes hOpener) hOpens) fun child hChild => ?_
      exact ih child hChild (h.inner hTree) (hOpens.knows hSetting hScope)
        (hOpens.subset_nodes (hNodes hOpener)) hChild

namespace History

theorem known (hSetting : setting.Admissible) (h : History setting parents requests) :
    ∀ request ∈ requests, request.Known setting requests := by
  induction h with
  | nil => exact fun _ hMem => absurd hMem List.not_mem_nil
  | @snoc prior request _ hMade _ ih =>
      refine Request.known_concat ih ?_
      cases hMade with
      | operation hOperation hLocations hSelections hKnows hDetails hReturns =>
          exact Request.known_of_operation hSetting hOperation hLocations hSelections hKnows
            hDetails hReturns prior
      | @field parent tree path fields merged bases _ hPrior hGrows hFields hMerged hAsks hBases
          hReturns =>
          have hRooted := (ih parent hPrior).rooted_of_grows hSetting hPrior hGrows
          obtain ⟨hInside, hLocated⟩ := hRooted.of_merged ih hFields hMerged
          refine hAsks.known hSetting ih hInside hLocated (fun base hBase => ?_) hReturns
          obtain ⟨earlier, hEarlier, _, hTree⟩ := hBases.from_prior base hBase
          exact ⟨earlier, hEarlier, hTree⟩

theorem nodup_locations (h : History setting parents requests) :
    (requests.map Request.locations).Nodup := by
  induction h with
  | nil => exact List.nodup_nil
  | snoc _ _ hNew ih =>
      rw [List.map_append, List.map_singleton, ← List.concat_eq_append, List.nodup_concat]
      refine ⟨?_, ih⟩
      intro hMem
      obtain ⟨earlier, hEarlier, hSame⟩ := List.mem_map.mp hMem
      exact hNew earlier hEarlier hSame

/-- The nodes that are asked for tell the request. -/
theorem locations_inj (h : History setting parents requests) {other : Request}
    (hRequest : request ∈ requests) (hOther : other ∈ requests)
    (hSame : request.locations = other.locations) : request = other :=
  List.inj_on_of_nodup_map h.nodup_locations hRequest hOther hSame

/-- The key of a tree tells the tree. -/
theorem tree_eq (hSetting : setting.Admissible) (h : History setting parents requests)
    {other : FragmentTree} (hTree : Rooted setting requests tree)
    (hOther : Rooted setting requests other) (hKey : tree.key = other.key) : tree = other :=
  have hKnown := h.known hSetting
  (hTree.planted hSetting hKnown).tree_eq hSetting h.nodup_locations
    (hOther.planted hSetting hKnown) hKey

/-- A return tree among the bases is in the return tree that they were added to. -/
theorem mem_allKeys_of_base (hSetting : setting.Admissible) (h : History setting parents requests)
    (hRequest : request ∈ requests) {bases : List FragmentTree}
    (hReturns : request.Returns setting bases)
    (hBases : ∀ base ∈ bases, Rooted setting requests base) {earlier : Request}
    (hEarlier : earlier ∈ requests)
    (hKey : earlier.returnTree.key ∈ bases.map FragmentTree.key) :
    earlier.returnTree.key ∈ request.returnTree.allKeys := by
  have hKnown := h.known hSetting
  obtain ⟨collected, hCollected, hTree⟩ := hReturns
  obtain ⟨_, _, hGathering⟩ := Setting.gathering_of_collectIn hSetting
    (hKnown request hRequest).declared (hKnown request hRequest).nodes hCollected
  have hGrown : setting.Grown _ request.branch.condition request.branch.selections _ :=
    hGathering.grown
  have hMem : earlier.returnTree ∈ Build.addTrees collected.fragments bases := by
    obtain ⟨more, hMore, _, hKept⟩ := Build.addTrees_spec collected.fragments bases
    obtain ⟨base, hBase, hSame⟩ := List.mem_map.mp hKey
    obtain ⟨kept, hMem, hKeptKey⟩ := hKept base hBase
    rw [← hMore] at hMem
    have hRooted : Rooted setting requests kept := by
      rcases Build.mem_of_mem_addTrees hMem with hFragment | hOther
      · exact hGrown.rooted (.requested hRequest) hFragment
      · exact hBases kept hOther
    rwa [h.tree_eq hSetting (hKnown earlier hEarlier).rooted hRooted
      (hSame.symm.trans hKeptKey.symm)]
  rw [FragmentTree.mem_allKeys_iff, hTree]
  refine ⟨earlier.returnTree, ?_, rfl⟩
  rcases FragmentTree.hoist_cases request.declared.name
      (request.whole (Build.addTrees collected.fragments bases)) with
    hSame | ⟨child, hChildren, _, hName, hHoist⟩
  · rw [hSame]
    exact .inner hMem (.self _)
  · -- The base is all that there is, and it has given way as far as it can.
    have hOnly : Build.addTrees collected.fragments bases = [child] := hChildren
    rw [hOnly, List.mem_singleton] at hMem
    obtain ⟨_, _, hMade⟩ := h.made hEarlier
    obtain ⟨_, hReturns⟩ := hMade.returns
    have hDeclared : earlier.declared.name = request.declared.name := by
      rw [← hReturns.condition_name, hMem, hName]
    obtain ⟨_, _, hEarlierTree⟩ := hReturns
    have hStays : child.hoist request.declared.name = earlier.returnTree := by
      rw [← hMem, hEarlierTree, hDeclared, FragmentTree.hoist_hoist]
    rw [hHoist, hStays]
    exact .self _

end History

theorem Document.inFile_locate {document : Document} (position : Position) :
    (document.locate position).inFile document.file = document.locate position :=
  rfl

theorem Request.Known.inFile_locations (h : request.Known setting requests) :
    request.locations.map (Location.inFile setting.document.file) = request.locations := by
  refine (List.map_congr_left fun location hLocation => ?_).trans (List.map_id _)
  obtain ⟨body, _, rfl⟩ := h.located location hLocation
  exact Document.inFile_locate body.1

theorem Request.Known.inFile_origin (h : request.Known setting requests) :
    request.branch.origin.inFile setting.document.file = request.branch.origin := by
  simp only [Request.branch, Origin.inFile]
  rw [h.inFile_locations]

theorem Setting.Opens.inFile_origin {scope : SchemaType} {selection : Selection} {branch : Branch}
    (h : setting.Opens scope selection branch) :
    branch.origin.inFile setting.document.file = branch.origin := by
  cases h <;> rfl

/-- The origins of a run all lie in the document's file. -/
theorem Head.inFile_origin (hKnown : ∀ request ∈ requests, request.Known setting requests)
    {branch : Branch} (h : Head setting requests branch) :
    branch.origin.inFile setting.document.file = branch.origin := by
  cases h with
  | opened _ _ hOpens => exact hOpens.inFile_origin
  | requested hRequest => exact (hKnown _ hRequest).inFile_origin

theorem Stands.inFile_origin (hKnown : ∀ request ∈ requests, request.Known setting requests)
    {branch : Branch} (h : Stands setting requests branch) :
    branch.origin.inFile setting.document.file = branch.origin := by
  cases h with
  | opened _ _ hOpens => exact hOpens.inFile_origin
  | requested hRequest => exact (hKnown _ hRequest).inFile_origin

theorem OriginKey.inFileAll_eq_map (file : SourcePath) (keys : List OriginKey) :
    OriginKey.inFileAll file keys = keys.map (OriginKey.inFile file) := by
  induction keys with
  | nil => rfl
  | cons key rest ih => rw [OriginKey.inFileAll, List.map_cons, ih]

theorem FragmentTree.inFile_key {file : SourcePath}
    (h : ∀ subtree, FragmentTree.Within subtree tree →
      subtree.branch.origin.inFile file = subtree.branch.origin) :
    tree.key.inFile file = tree.key := by
  induction tree using FragmentTree.induct with
  | node tree ih =>
      rw [tree.key_eq, OriginKey.inFile, OriginKey.inFileAll_eq_map, List.map_map]
      have hOrigin : tree.origin.inFile file = tree.origin := h tree (.self _)
      rw [hOrigin]
      congr 1
      refine List.map_congr_left fun child hChild => ?_
      exact ih child hChild fun subtree hWithin => h subtree (.inner hChild hWithin)

theorem Rooted.inFile_key (hKnown : ∀ request ∈ requests, request.Known setting requests)
    (h : Rooted setting requests tree) :
    tree.key.inFile setting.document.file = tree.key :=
  FragmentTree.inFile_key fun subtree hWithin => (h subtree hWithin).inFile_origin hKnown

theorem Planted.inFile_key (hKnown : ∀ request ∈ requests, request.Known setting requests)
    (h : Planted setting requests tree) :
    tree.key.inFile setting.document.file = tree.key :=
  FragmentTree.inFile_key fun subtree hWithin => (h subtree hWithin).inFile_origin hKnown

end ResponseModels
