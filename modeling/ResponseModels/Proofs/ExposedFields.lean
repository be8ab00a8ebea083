import ResponseModels.Proofs.Overrides
import ResponseModels.Proofs.Run.Contexts
import ResponseModels.Proofs.Selection.Walking

/-! What the interface of a node exposes, if all nodes beneath were collected from its selections.
It exposes the response keys that the node merges, neither more nor fewer. Leaf fields are declared
once on the way down, and a composite field is declared, by the interface or by one that it extends,
with the model of just the nodes that are merged under its key. -/
namespace ResponseModels

open GraphQL

/-- The children of the node are the fragments that a walk over its selections takes. -/
def Setting.Collects (setting : Setting) (tree : FragmentTree) : Prop :=
  ∃ type scope nodes, setting.Walks type scope [] tree.selections nodes tree.children

variable {setting : Setting} {task : Task} {requests : List Request} {session : Session}
  {path : ModelPath} {tree child : FragmentTree} {fields : List MergedField}
  {bases : List (InterfaceModel × List MergedField)} {merged : MergedField}
  {model : InterfaceModel}

theorem Setting.Collects.of_collectIn (hDocument : setting.document.Accepted)
    {scope type : SchemaType} {collected : Collected}
    (h : setting.collectIn scope type tree.selections path = .ok collected)
    (hChildren : tree.children = collected.fragments) : setting.Collects tree := by
  obtain ⟨nodes, hWalk, _⟩ := (Setting.collectIn_eq_ok_iff hDocument).mp h
  rw [← hChildren] at hWalk
  exact ⟨type, scope, nodes, hWalk⟩

theorem Setting.Collects.inner (h : setting.Collects tree) (hChild : child ∈ tree.children) :
    setting.Collects child := by
  obtain ⟨type, scope, nodes, hWalk⟩ := h
  obtain ⟨_, _, _, _, inner, hInner⟩ := (hWalk.opened hChild).resolve_left List.not_mem_nil
  exact ⟨type, child.condition, inner, hInner⟩

namespace Coherent

/-- The field nodes of a child are met in one go among those of the node. -/
theorem met_infix (hSetting : task.toSetting.Admissible) (h : Coherent task requests session)
    (hTree : Arises task.toSetting session tree) (hCollects : task.toSetting.Collects tree)
    (hChild : child ∈ tree.children) :
    task.toSetting.met child <:+: task.toSetting.met tree := by
  obtain ⟨_, _, _, hWalk⟩ := hCollects
  have hNodes : tree.selections ⊆ task.document.nodes :=
    (h.planted hSetting hTree tree (.self _)).subset_nodes h.known
  exact hWalk.met_infix hSetting.document (.of_positions hSetting.positions hNodes) hChild

/-- The interface of a node exposes the response keys of the field nodes that it meets. -/
theorem mem_fieldNames_iff (hSetting : task.toSetting.Admissible)
    (h : Coherent task requests session) (hTree : Arises task.toSetting session tree)
    (hCollects : task.toSetting.Collects tree)
    (hFound : session.interface? tree.key = some model) (key : String) :
    key ∈ model.fieldNames ↔ ∃ occurrence ∈ task.toSetting.met tree, occurrence.key = key := by
  induction tree using FragmentTree.induct generalizing model with
  | node tree ih =>
      obtain ⟨fields, bases, hAssembled⟩ :=
        h.assembled_of_arises hSetting hTree hFound (.root tree.name)
      have hMerge := Setting.merged_met hAssembled.merges
      rw [Sound.mem_fieldNames]
      constructor
      · rintro (⟨field, hField, rfl⟩ | ⟨base, hBase, hKey⟩)
        · obtain ⟨merged, hMerged, _, hDeclaration⟩ := hAssembled.exists_declaration hField
          obtain ⟨first, hFirst, hSame, _⟩ := (hMerge.each merged hMerged).head_node
          exact ⟨first, hFirst, hSame.trans hDeclaration.responseName.symm⟩
        · obtain ⟨child, hChild, hKept⟩ := (h.mem_bases_iff hSetting hAssembled base).mp hBase
          obtain ⟨occurrence, hMet, hSame⟩ := (ih child hChild
            (hTree.within (.inner hChild (.self _))) (hCollects.inner hChild) hKept).mp hKey
          exact ⟨occurrence, (h.met_infix hSetting hTree hCollects hChild).subset hMet, hSame⟩
      · rintro ⟨occurrence, hMet, rfl⟩
        obtain ⟨merged, hMerged, hKey⟩ := hMerge.covered occurrence hMet
        rw [← hKey]
        cases hDeclared : Build.isDeclared task bases merged with
        | true => exact .inl ((hAssembled.declares_iff hMerged).mpr hDeclared)
        | false =>
            obtain ⟨base, hBase, hExposed⟩ := Build.exposed_of_not_declared hDeclared
            obtain ⟨child, hChild, hKept, _⟩ := Outcome.exists_left hAssembled.children hBase
            exact .inr ⟨base.1, (h.mem_bases_iff hSetting hAssembled base.1).mpr
              ⟨child, hChild, hKept⟩, hExposed⟩

/-- A child with the very locations of a merged field has the field of the schema as well: its
nodes are all there are of the key. -/
theorem field_eq_of_locations (hSetting : task.toSetting.Admissible)
    (h : Coherent task requests session) (hTree : Arises task.toSetting session tree)
    (hCollects : task.toSetting.Collects tree) (hChild : child ∈ tree.children)
    (hFields : task.treeFields path tree = .ok fields) (hMerged : merged ∈ fields)
    {elsewhere : ModelPath} {others : List MergedField} {other : MergedField}
    (hOthers : task.treeFields elsewhere child = .ok others) (hOther : other ∈ others)
    (hKey : other.responseKey = merged.responseKey)
    (hLocations : other.locations = merged.locations) : other.field = merged.field := by
  have hFrom := (Setting.merged_met hFields).each merged hMerged
  have hFrom' := (Setting.merged_met hOthers).each other hOther
  refine hFrom.field_eq_of_infix hFrom' (h.met_infix hSetting hTree hCollects hChild) hKey ?_
  have hLength := congrArg List.length hLocations
  rwa [hFrom.locations, hFrom'.locations, List.length_map, List.length_map] at hLength

/-- What is beneath a composite field was asked for, and the interface or one that it extends
declares the field with the name of that model. -/
theorem declares_composite (hSetting : task.toSetting.Admissible)
    (h : Coherent task requests session) (hTree : Arises task.toSetting session tree)
    (hCollects : task.toSetting.Collects tree)
    (hFound : session.interface? tree.key = some model)
    (hFields : task.treeFields path tree = .ok fields) (hMerged : merged ∈ fields)
    {type : SchemaType} (hType : Build.innermostType? task merged = some type)
    (hComposite : type.isComposite = true) :
    ∃ name, session.requested.lookup merged.origin = some name ∧
      ∃ owner ∈ model :: model.allBases, ∃ field ∈ owner.fields,
        field.responseName = merged.responseKey ∧ field.target = .composite name := by
  induction tree using FragmentTree.induct generalizing model path fields merged with
  | node tree ih =>
      obtain ⟨_, bases, hAssembled⟩ := h.assembled_of_arises hSetting hTree hFound path
      cases hFields.symm.trans hAssembled.merges
      cases hDeclared : Build.isDeclared task bases merged with
      | true =>
          obtain ⟨field, hField, hDeclaration⟩ := hAssembled.exists_field hMerged hDeclared
          cases hDeclaration with
          | composite _ _ hName => exact ⟨_, hName, model, List.mem_cons_self, _, hField, rfl, rfl⟩
          | leaf hLeafType hLeaf =>
              cases hType.symm.trans hLeafType
              simp [hComposite] at hLeaf
      | false =>
          have hExposed := Build.exposed_of_not_declared hDeclared
          obtain ⟨other, hOverridden, hLocations⟩ :
              ∃ other ∈ overriddenIn bases merged.responseKey,
                other.locations = merged.locations := by
            by_contra hNone
            have hAgain := (Build.isDeclared_composite_iff hType hComposite hExposed).mpr
              fun other hOther hSame => hNone ⟨other, hOther, hSame⟩
            simp [hDeclared] at hAgain
          obtain ⟨child, hChild, others, hOthers, hOther, hKey⟩ :=
            (mem_overriddenIn hAssembled.children _ _).mp hOverridden
          obtain ⟨base, _, hKept, _⟩ := Outcome.exists_right hAssembled.children hChild
          have hField := h.field_eq_of_locations hSetting hTree hCollects hChild hFields hMerged
            hOthers hOther hKey hLocations
          have hOtherType : Build.innermostType? task other = some type := by
            rw [Build.innermostType?, hField]
            exact hType
          obtain ⟨name, hName, owner, hOwner, hDeclares⟩ := ih child hChild
            (hTree.within (.inner hChild (.self _))) (hCollects.inner hChild) hKept hOthers hOther
            hOtherType
          have hBase : base.1 ∈ model.bases :=
            (h.mem_bases_iff hSetting hAssembled base.1).mpr ⟨child, hChild, hKept⟩
          rw [MergedField.origin, hLocations] at hName
          rw [hKey] at hDeclares
          refine ⟨name, hName, owner, List.mem_cons_of_mem _ ?_, hDeclares⟩
          exact InterfaceModel.mem_allBases.mpr ⟨base.1, hBase, List.mem_cons.mp hOwner⟩

end Coherent

/-- The interface that is made for a node in a reachable session, if all nodes beneath were
collected from its selections. It exposes the response keys that the node merges and declares none
twice. No base exposes a leaf field that it declares. Under each response key of a composite field
the nodes that are merged there were asked for, and the interface or one that it extends declares
the key with the name of their model. -/
theorem interface_exposes_its_tree {task : Task} (hSetting : task.toSetting.Admissible)
    {before after : Session} (hReachable : before.Reachable task) {tree : FragmentTree}
    (hTree : Arises task.toSetting before tree) {scope type : SchemaType} {place : ModelPath}
    {collected : Collected}
    (hCollected : task.collectIn scope type tree.selections place = .ok collected)
    (hChildren : tree.children = collected.fragments) {path : ModelPath} {model : InterfaceModel}
    (hYields : (Build.synthesize task path tree).Yields before model after) :
    ∃ fields, task.treeFields path tree = .ok fields ∧
      (∀ key, key ∈ model.fieldNames ↔ key ∈ fields.map MergedField.responseKey) ∧
      (model.fields.map FieldModel.responseName).Nodup ∧
      (∀ field ∈ model.fields, ∀ kind name, field.target = .leaf kind name →
        ∀ base ∈ model.bases, field.responseName ∉ base.fieldNames) ∧
      ∀ merged ∈ fields, ∀ type, Build.innermostType? task merged = some type →
        type.isComposite = true →
        ∃ name, after.requested.lookup merged.origin = some name ∧
          ∃ owner ∈ model :: model.allBases, ∃ field ∈ owner.fields,
            field.responseName = merged.responseKey ∧ field.target = .composite name := by
  obtain ⟨requests, hBefore⟩ := hReachable.coherent hSetting
  obtain ⟨others, hAfter, hExtends, hFound, _⟩ :=
    makesInterface hSetting tree hBefore hTree hYields
  have hArises := hTree.mono hExtends
  have hCollects : task.toSetting.Collects tree :=
    .of_collectIn hSetting.document hCollected hChildren
  obtain ⟨fields, bases, hAssembled⟩ := hAfter.assembled_of_arises hSetting hArises hFound path
  refine ⟨fields, hAssembled.merges, fun key => ?_, hAssembled.nodup_fields, ?_, ?_⟩
  · rw [hAfter.mem_fieldNames_iff hSetting hArises hCollects hFound,
      (Setting.merged_met hAssembled.merges).mem_keys_iff]
  · intro field hField kind name hTarget base hBase
    obtain ⟨merged, _, hDeclared, hDeclaration⟩ := hAssembled.exists_declaration hField
    obtain ⟨entry, hEntry, rfl⟩ := hAssembled.exists_base hBase
    cases hDeclaration with
    | composite => cases hTarget
    | leaf hType hLeaf => exact Build.isDeclared_leaf hType hLeaf hDeclared entry hEntry
  · intro merged hMerged type hType hComposite
    exact hAfter.declares_composite hSetting hArises hCollects hFound hAssembled.merges hMerged
      hType hComposite

/-- A shelf has a number of albums, and one of them is on top. -/
def shelfTypes : List SchemaItem :=
  [.define ⟨⟨1, 1⟩, none, "Query", .object []
      [⟨⟨1, 9⟩, none, "top", .named "Album"⟩, ⟨⟨1, 19⟩, none, "count", .named "Int"⟩]⟩,
    .define ⟨⟨2, 1⟩, none, "Album", .object []
      [⟨⟨2, 9⟩, none, "title", .named "String"⟩, ⟨⟨2, 19⟩, none, "year", .named "Int"⟩]⟩]

/-- A query that selects the number again and more of the album than its fragment does. -/
def shelfTask : Task :=
  (Task.ofItems? shelfTypes
    [.operation ⟨.query, some "Shelf", ⟨1, 1⟩, [],
        [.spread ⟨1, 3⟩ "Top", .field ⟨1, 5⟩ none "count" [],
          .field ⟨1, 7⟩ none "top" [.field ⟨1, 9⟩ none "year" []]]⟩,
      .fragment ⟨"Top", "Query", ⟨2, 1⟩,
        [.spread ⟨2, 3⟩ "Count", .field ⟨2, 5⟩ none "top" [.field ⟨2, 7⟩ none "title" []]]⟩,
      .fragment ⟨"Count", "Query", ⟨3, 1⟩, [.field ⟨3, 3⟩ none "count" []]⟩]).get
    (by decide +kernel)

/-- The number is left to the fragments, and the album is declared again, for both of its nodes. -/
theorem shelf_exposes_count_and_top :
    ∃ (before after : Session) (origin : Origin) (tree : FragmentTree) (model : InterfaceModel)
      (fields : List MergedField), before.Reachable shelfTask ∧
      (origin, tree) ∈ before.returnTrees ∧
      (Build.synthesize shelfTask (.root "Shelf") tree).Yields before model after ∧
      model.fields.map FieldModel.responseName = ["top"] ∧
      shelfTask.treeFields (.root "Shelf") tree = .ok fields ∧
      fields.map (fun merged => (merged.responseKey, merged.nodes.length)) =
        [("count", 2), ("top", 2)] ∧
      (∀ key, key ∈ model.fieldNames ↔ key ∈ fields.map MergedField.responseKey) ∧
      ∀ merged ∈ fields, ∀ type, Build.innermostType? shelfTask merged = some type →
        type.isComposite = true →
        ∃ name, after.requested.lookup merged.origin = some name ∧
          ∃ owner ∈ model :: model.allBases, ∃ field ∈ owner.fields,
            field.responseName = merged.responseKey ∧ field.target = .composite name := by
  have hRun : ((Stage.after? shelfTask (.initial 9) shelfTask.document.operations 0).bind
      fun stage => (shelfTask.schema.type? "Query").bind fun type =>
        stage.2.2.returnTrees.head?.bind fun entry =>
          ((Build.synthesize shelfTask (.root "Shelf") entry.2).run stage.2.2).1.toOption.bind
            fun model => (shelfTask.treeFields (.root "Shelf") entry.2).toOption.bind fun fields =>
              (shelfTask.collectIn type type entry.2.selections (.root "Shelf")).toOption.map
                fun collected => (model.fields.map FieldModel.responseName,
                  fields.map fun merged => (merged.responseKey, merged.nodes.length),
                  decide (entry.2.children.map FragmentTree.key =
                    collected.fragments.map FragmentTree.key))) =
      some (["top"], [("count", 2), ("top", 2)], true) := by
    decide +kernel
  have hStart : Startable shelfTask (.initial 9) shelfTask.document.operations :=
    .ofItems (Option.some_get _).symm (by decide +kernel) 9
  obtain ⟨⟨_, _, before⟩, hAfter, hRun⟩ := Option.bind_eq_some_iff.mp hRun
  obtain ⟨type, hType, hRun⟩ := Option.bind_eq_some_iff.mp hRun
  obtain ⟨⟨origin, tree⟩, hHead, hRun⟩ := Option.bind_eq_some_iff.mp hRun
  obtain ⟨model, hModel, hRun⟩ := Option.bind_eq_some_iff.mp hRun
  obtain ⟨fields, hFields, hRun⟩ := Option.bind_eq_some_iff.mp hRun
  obtain ⟨collected, hCollected, hComputed⟩ := Option.map_eq_some_iff.mp hRun
  rw [Outcome.toOption_eq_some_iff] at hModel hFields hCollected
  simp only [Prod.mk.injEq, decide_eq_true_eq] at hComputed
  obtain ⟨hDeclared, hMerged, hKeys⟩ := hComputed
  have hReachable := (Stage.of_after? hAfter).reachable hStart
  have hTree := List.mem_of_head? hHead
  have hArises : Arises shelfTask.toSetting before tree := .returned hTree (.self tree)
  obtain ⟨_, hCoherent⟩ := hReachable.coherent hStart.setting
  have hKnows := hStart.setting.knows_of_type? hType
  have hNodes := (hCoherent.planted hStart.setting hArises tree (.self _)).subset_nodes
    hCoherent.known
  have hChildren : tree.children = collected.fragments :=
    eq_of_map_eq_map (fun child hChild fragment hFragment hKey =>
      hCoherent.tree_eq hStart.setting (hArises.within (.inner hChild (.self _)))
        (.collected hKnows hNodes hCollected hFragment (.self _)) hKey) hKeys
  have hYields : (Build.synthesize shelfTask (.root "Shelf") tree).Yields before model _ :=
    Prod.ext hModel rfl
  obtain ⟨_, hAll, hNames, _, _, hComposite⟩ :=
    interface_exposes_its_tree hStart.setting hReachable hArises hCollected hChildren hYields
  cases hFields.symm.trans hAll
  exact ⟨before, _, origin, tree, model, fields, hReachable, hTree, hYields, hDeclared, hFields,
    hMerged, hNames, hComposite⟩

end ResponseModels
