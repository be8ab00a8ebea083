import ResponseModels.Proofs.ExposedFields

/-! Composite fields that an interface declares although a base exposes them. The nodes that a tree
meets under a response key are compared as lists: the field is left to the bases only if a child
meets the same nodes, in the same order and as often. That a child has them all is not enough, since
a fragment that is reached twice has its nodes met twice. Where no node is met twice, a field is
declared once more exactly if no child has all of its nodes. -/
namespace ResponseModels

open GraphQL

/-- The field nodes that are met in a tree under a response key, in their order. -/
def Setting.nodesUnder (setting : Setting) (key : String) (tree : FragmentTree) :
    List FieldNode :=
  ((setting.met tree).filter (·.key == key)).map Occurrence.node

variable {setting : Setting} {task : Task} {requests : List Request} {session : Session}
  {path : ModelPath} {tree child : FragmentTree} {fields : List MergedField}
  {bases : List (InterfaceModel × List MergedField)} {merged : MergedField}
  {model : InterfaceModel} {type : SchemaType}

/-- These are the nodes that are merged under the key. -/
theorem Setting.nodes_of_treeFields (h : setting.treeFields path tree = .ok fields)
    (hMerged : merged ∈ fields) :
    merged.nodes = setting.nodesUnder merged.responseKey tree :=
  ((merged_met h).each merged hMerged).nodes

theorem Setting.exists_merged_under (h : setting.treeFields path tree = .ok fields) {key : String}
    {node : FieldNode} (hNode : node ∈ setting.nodesUnder key tree) :
    ∃ merged ∈ fields, merged.responseKey = key := by
  obtain ⟨occurrence, hOccurrence, _⟩ := List.mem_map.mp hNode
  obtain ⟨hMet, hKey⟩ := List.mem_filter.mp hOccurrence
  obtain ⟨merged, hMerged, hSame⟩ := (merged_met h).covered occurrence hMet
  exact ⟨merged, hMerged, hSame.trans (eq_of_beq hKey)⟩

namespace Coherent

/-- Locations tell nodes. -/
theorem nodes_eq_of_locations (hSetting : task.toSetting.Admissible)
    (h : Coherent task requests session) (hTree : Arises task.toSetting session tree)
    (hFields : task.treeFields path tree = .ok fields) (hMerged : merged ∈ fields)
    (hChild : Arises task.toSetting session child) {others : List MergedField}
    {other : MergedField} (hOthers : task.treeFields path child = .ok others)
    (hOther : other ∈ others) (hLocations : other.locations = merged.locations) :
    other.nodes = merged.nodes := by
  obtain ⟨hNodes, hLocated⟩ := (h.planted hSetting hTree).of_merged h.known hFields hMerged
  obtain ⟨hNodes', hLocated'⟩ := (h.planted hSetting hChild).of_merged h.known hOthers hOther
  rw [hLocated, hLocated'] at hLocations
  refine eq_of_map_eq_map (fun node hNode node' hNode' hSame => ?_) hLocations
  exact FieldNode.selection_inj (hSetting.positions.node_eq (hNodes' node hNode)
    (hNodes node' hNode') (Document.locate_inj hSame))

/-- A composite field that a base exposes is declared once more unless a child meets the same
list of nodes. -/
theorem redeclares_iff (hSetting : task.toSetting.Admissible)
    (h : Coherent task requests session) (hTree : Arises task.toSetting session tree)
    (hAssembled : Assembled task session path tree fields bases model) (hMerged : merged ∈ fields)
    (hType : Build.innermostType? task merged = some type) (hComposite : type.isComposite = true)
    (hExposed : ∃ base ∈ model.bases, merged.responseKey ∈ base.fieldNames) :
    merged.responseKey ∈ model.fields.map FieldModel.responseName ↔
      ∀ child ∈ tree.children,
        task.toSetting.nodesUnder merged.responseKey child ≠ merged.nodes := by
  have hBases : ∃ base ∈ bases, merged.responseKey ∈ base.1.fieldNames := by
    obtain ⟨base, hBase, hKey⟩ := hExposed
    obtain ⟨entry, hEntry, rfl⟩ := hAssembled.exists_base hBase
    exact ⟨entry, hEntry, hKey⟩
  rw [List.mem_map, hAssembled.declares_iff hMerged,
    Build.isDeclared_composite_iff hType hComposite hBases]
  constructor
  · intro hNone child hChild hSame
    obtain ⟨base, _, _, hOthers⟩ := Outcome.exists_right hAssembled.children hChild
    obtain ⟨_, hLocated⟩ :=
      (h.planted hSetting hTree).of_merged h.known hAssembled.merges hMerged
    obtain ⟨node, hNode⟩ : ∃ node, node ∈ merged.nodes := by
      obtain ⟨first, _, _, _, hHead⟩ :=
        ((Setting.merged_met hAssembled.merges).each merged hMerged).head_node
      exact ⟨first.node, List.mem_of_head? hHead⟩
    rw [← hSame] at hNode
    obtain ⟨other, hOther, hKey⟩ := Setting.exists_merged_under hOthers hNode
    obtain ⟨_, hLocated'⟩ := (h.planted hSetting (hTree.within
      (.inner hChild (.self _)))).of_merged h.known hOthers hOther
    have hNodes : other.nodes = merged.nodes := by
      rw [Setting.nodes_of_treeFields hOthers hOther, hKey, hSame]
    refine hNone other ((mem_overriddenIn hAssembled.children _ _).mpr
      ⟨child, hChild, base.2, hOthers, hOther, hKey⟩) ?_
    rw [hLocated, hLocated', hNodes]
  · intro hNone other hOverridden hLocations
    obtain ⟨child, hChild, others, hOthers, hOther, hKey⟩ :=
      (mem_overriddenIn hAssembled.children _ _).mp hOverridden
    have hNodes := h.nodes_eq_of_locations hSetting hTree hAssembled.merges hMerged
      (hTree.within (.inner hChild (.self _))) hOthers hOther hLocations
    rw [Setting.nodes_of_treeFields hOthers hOther, hKey] at hNodes
    exact hNone child hChild hNodes

/-- A child that has all nodes of a key meets them as its node does, if none is met twice. -/
theorem nodesUnder_eq_of_subset (hSetting : task.toSetting.Admissible)
    (h : Coherent task requests session) (hTree : Arises task.toSetting session tree)
    (hCollects : task.toSetting.Collects tree) (hChild : child ∈ tree.children) {key : String}
    (hNodup : (task.toSetting.nodesUnder key tree).Nodup)
    (hSubset : task.toSetting.nodesUnder key tree ⊆ task.toSetting.nodesUnder key child) :
    task.toSetting.nodesUnder key child = task.toSetting.nodesUnder key tree := by
  have hInfix : task.toSetting.nodesUnder key child <:+: task.toSetting.nodesUnder key tree :=
    ((h.met_infix hSetting hTree hCollects hChild).filter _).map _
  exact hInfix.sublist.eq_of_length_le (List.subperm_of_subset hNodup hSubset).length_le

end Coherent

/-- When compiling succeeds there is a run that is over, and every interface of the graph is that of
some node. In such a run the interface of a node declares a composite field that a base exposes
unless a child meets, under the response key, the very list of nodes that the node merges. So it
does if no child has all of these nodes. The converse holds where the children were collected from
the selections of the node and no node is merged twice. -/
theorem exposed_composite_redeclared_iff {task : Task} {names : Names}
    {operations : List Operation} (hStart : Startable task names operations) :
    (∀ graph, (compileOperations task names operations).1 = .ok graph →
      ∃ taken session, Finished task names operations taken session ∧ session.graph = graph ∧
        ∀ interface ∈ graph.interfaces, ∃ tree, Arises task.toSetting session tree ∧
          session.interface? tree.key = some interface) ∧
    ∀ taken session, Finished task names operations taken session →
      ∀ path tree interface, Arises task.toSetting session tree →
        session.interface? tree.key = some interface →
        ∃ fields, task.treeFields path tree = .ok fields ∧
          ∀ merged ∈ fields, ∀ type, Build.innermostType? task merged = some type →
            type.isComposite = true →
            (∃ base ∈ interface.bases, merged.responseKey ∈ base.fieldNames) →
            (merged.responseKey ∈ interface.fields.map FieldModel.responseName ↔
              ∀ child ∈ tree.children,
                task.toSetting.nodesUnder merged.responseKey child ≠ merged.nodes) ∧
            ((∀ child ∈ tree.children,
                ¬ merged.nodes ⊆ task.toSetting.nodesUnder merged.responseKey child) →
              merged.responseKey ∈ interface.fields.map FieldModel.responseName) ∧
            ∀ scope type place collected,
              task.collectIn scope type tree.selections place = .ok collected →
              tree.children = collected.fragments → merged.nodes.Nodup →
              (merged.responseKey ∈ interface.fields.map FieldModel.responseName ↔
                ∀ child ∈ tree.children,
                  ¬ merged.nodes ⊆ task.toSetting.nodesUnder merged.responseKey child) := by
  have hSetting := hStart.setting
  refine ⟨fun graph hCompile => ?_,
    fun taken session hFinished path tree interface hTree hFound => ?_⟩
  · obtain ⟨taken, session, hFinished, rfl⟩ := exists_finished_of_compile hStart hCompile
    obtain ⟨requests, hCoherent⟩ := (hFinished.stage.reachable hStart).coherent hSetting
    refine ⟨taken, session, hFinished, rfl, fun interface hInterface => ?_⟩
    obtain ⟨tree, _, _, hFound, _⟩ := (hFinished.sound hStart).exists_tree hInterface
    obtain ⟨other, _, _, _, hKey, hArises, _⟩ := hCoherent.assembled _ _ hFound
    exact ⟨other, hArises, hKey ▸ hFound⟩
  · obtain ⟨requests, hCoherent⟩ := (hFinished.stage.reachable hStart).coherent hSetting
    obtain ⟨fields, bases, hAssembled⟩ :=
      hCoherent.assembled_of_arises hSetting hTree hFound path
    refine ⟨fields, hAssembled.merges, fun merged hMerged type hType hComposite hExposed => ?_⟩
    have hIff := hCoherent.redeclares_iff hSetting hTree hAssembled hMerged hType hComposite
      hExposed
    have hMore : (∀ child ∈ tree.children,
        ¬ merged.nodes ⊆ task.toSetting.nodesUnder merged.responseKey child) →
          merged.responseKey ∈ interface.fields.map FieldModel.responseName := fun hNone =>
      hIff.mpr fun child hChild hSame => hNone child hChild (hSame ▸ List.Subset.refl _)
    refine ⟨hIff, hMore, fun scope type place collected hCollected hChildren hNodup =>
      ⟨fun hDeclared child hChild hSubset => ?_, hMore⟩⟩
    have hCollects : task.toSetting.Collects tree :=
      .of_collectIn hSetting.document hCollected hChildren
    rw [Setting.nodes_of_treeFields hAssembled.merges hMerged] at hNodup hSubset hIff
    exact hIff.mp hDeclared child hChild
      (hCoherent.nodesUnder_eq_of_subset hSetting hTree hCollects hChild hNodup hSubset)

/-- The fragment for the title is reached from the query and once more through a fragment. -/
def coverTask : Task :=
  (Task.ofItems? albumTypes
    [.operation ⟨.query, some "Shelf", ⟨1, 1⟩, [],
        [.spread ⟨1, 3⟩ "Cover", .spread ⟨1, 5⟩ "Title"]⟩,
      .fragment ⟨"Cover", "Query", ⟨2, 1⟩, [.spread ⟨2, 3⟩ "Title"]⟩,
      albumFragment "Title" "title" 3]).get (by decide +kernel)

/-- The query merges the one node of the album twice. So it declares the album once more, although
each of its fragments has that node. -/
theorem shelf_redeclares_album_of_cover :
    ∃ (taken : List Request) (session : Session) (origin : Origin) (tree child : FragmentTree)
      (interface : InterfaceModel) (merged : MergedField),
      Finished coverTask (.initial 9) coverTask.document.operations taken session ∧
      (origin, tree) ∈ session.returnTrees ∧ session.interface? tree.key = some interface ∧
      coverTask.treeFields (.root "Shelf") tree = .ok [merged] ∧ merged.nodes.length = 2 ∧
      "album" ∈ interface.fields.map FieldModel.responseName ∧ child ∈ tree.children ∧
      merged.nodes ⊆ coverTask.toSetting.nodesUnder "album" child ∧
      ∀ child ∈ tree.children, coverTask.toSetting.nodesUnder "album" child ≠ merged.nodes := by
  have hRun : ((Stage.after? coverTask (.initial 9) coverTask.document.operations 5).bind
      fun stage => stage.2.2.returnTrees.getLast?.bind fun entry =>
        entry.2.children.head?.bind fun child =>
          (stage.2.2.interface? entry.2.key).bind fun interface =>
            (coverTask.treeFields (.root "Shelf") entry.2).toOption.map fun fields =>
              ((stage.2.1 ++ stage.2.2.pending).isEmpty &&
                  (interface.fields.map FieldModel.responseName).contains "album" &&
                  interface.bases.any fun base => base.fieldNames.contains "album",
                fields.map fun merged => (merged.responseKey, merged.nodes.length,
                  (Build.innermostType? coverTask merged).any SchemaType.isComposite &&
                    decide (merged.nodes ⊆ coverTask.toSetting.nodesUnder "album" child)))) =
      some (true, [("album", 2, true)]) := by
    decide +kernel
  have hStart : Startable coverTask (.initial 9) coverTask.document.operations :=
    .ofItems (Option.some_get _).symm (by decide +kernel) 9
  obtain ⟨⟨taken, rest, session⟩, hAfter, hRun⟩ := Option.bind_eq_some_iff.mp hRun
  obtain ⟨⟨origin, tree⟩, hLast, hRun⟩ := Option.bind_eq_some_iff.mp hRun
  obtain ⟨child, hHead, hRun⟩ := Option.bind_eq_some_iff.mp hRun
  obtain ⟨interface, hFound, hRun⟩ := Option.bind_eq_some_iff.mp hRun
  obtain ⟨fields, hFields, hComputed⟩ := Option.map_eq_some_iff.mp hRun
  rw [Outcome.toOption_eq_some_iff] at hFields
  simp only [Prod.mk.injEq, Bool.and_eq_true, List.isEmpty_iff, List.append_eq_nil_iff,
    List.contains_iff_mem, List.any_eq_true, List.map_eq_singleton_iff, Option.any_eq_true,
    decide_eq_true_eq] at hComputed
  obtain ⟨⟨⟨⟨rfl, hPending⟩, hDeclared⟩, hExposed⟩, merged, rfl, hKey, hLength,
    ⟨type, hType, hComposite⟩, hSubset⟩ := hComputed
  have hTree := List.mem_of_getLast? hLast
  have hFinished : Finished coverTask (.initial 9) coverTask.document.operations taken session :=
    ⟨Stage.of_after? hAfter, hPending⟩
  obtain ⟨_, hSame, hMerged⟩ := (exposed_composite_redeclared_iff hStart).2 taken session
    hFinished (.root "Shelf") tree interface (.returned hTree (.self tree)) hFound
  cases hFields.symm.trans hSame
  obtain ⟨hIff, _⟩ := hMerged merged (List.mem_singleton.mpr rfl) type hType hComposite
    (hKey ▸ hExposed)
  rw [hKey] at hIff
  exact ⟨taken, session, origin, tree, child, interface, merged, hFinished, hTree, hFound, hFields,
    hLength, hDeclared, List.mem_of_head? hHead, hSubset, hIff.mp hDeclared⟩

end ResponseModels
