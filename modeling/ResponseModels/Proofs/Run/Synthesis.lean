import ResponseModels.Proofs.Run.Asking

/-! Making the interfaces of trees. When the parts of a tree that have no interface yet come about
by the request that is being modelled, the tree gets an interface that represents it, and a sound
session stays sound. -/
namespace ResponseModels

open GraphQL

namespace FragmentTree

variable {tree subtree : FragmentTree}

theorem sizeOf_key_child_lt {child : FragmentTree} (h : child ∈ tree.children) :
    sizeOf child.key < sizeOf tree.key := by
  have hMem := List.sizeOf_lt_of_mem (List.mem_map_of_mem (f := key) h)
  rw [tree.key_eq, OriginKey.node.sizeOf_spec]
  omega

theorem Within.sizeOf_key_le (h : Within subtree tree) : sizeOf subtree.key ≤ sizeOf tree.key := by
  induction h with
  | self => exact Nat.le_refl _
  | inner hChild _ ih => exact Nat.le_trans ih (Nat.le_of_lt (sizeOf_key_child_lt hChild))

/-- No part of a child has the key of the whole. -/
theorem key_ne_of_within_child {child : FragmentTree} (hChild : child ∈ tree.children)
    (h : Within subtree child) : subtree.key ≠ tree.key := by
  intro hSame
  have hLess := sizeOf_key_child_lt hChild
  have hLe := h.sizeOf_key_le
  rw [hSame] at hLe
  omega

end FragmentTree

theorem Build.distinctByName_spec (models : List InterfaceModel) :
    distinctByName models ⊆ models ∧
      ∀ model ∈ models, ∃ kept ∈ distinctByName models, kept.name = model.name := by
  obtain ⟨more, hMore, hSubset, hKept⟩ :=
    Association.keepFirst_spec InterfaceModel.name [] models
  rw [List.nil_append] at hMore hKept
  have hSame : distinctByName models = more := hMore
  rw [hSame]
  exact ⟨hSubset, hKept⟩

/-- Nothing is left out where a name tells the interface. -/
theorem Build.mem_distinctByName {models : List InterfaceModel}
    (h : ∀ model ∈ models, ∀ other ∈ models, model.name = other.name → model = other)
    (model : InterfaceModel) : model ∈ distinctByName models ↔ model ∈ models := by
  obtain ⟨hSubset, hKept⟩ := distinctByName_spec models
  constructor
  · exact fun hMem => hSubset hMem
  · intro hMem
    obtain ⟨kept, hKeptMem, hName⟩ := hKept model hMem
    rwa [← h kept (hSubset hKeptMem) model hMem hName]

variable {task : Task} {parents requests : List Request} {before after : Session}
  {parent : Request} {tree : FragmentTree} {path : ModelPath} {model : InterfaceModel}

/-- The interface of a tree is the one that is kept, or else it is put together from those of the
children. -/
theorem Build.yields_synthesize :
    (synthesize task path tree).Yields before model after ↔
      (before.interface? tree.key = some model ∧ after = before) ∨
        before.interface? tree.key = none ∧ ∃ bases middle,
          (synthesizeEach task path tree.children).Yields before bases middle ∧
            (assemble task path tree bases).Yields middle model after := by
  rw [← tree.eta, synthesize, tree.eta, yields_get_bind]
  cases hFound : before.interface? tree.key with
  | some known => simp [eq_comm]
  | none => simp [yields_bind]

theorem Build.yields_synthesizeEach_cons {trees : List FragmentTree}
    {bases : List (InterfaceModel × List MergedField)} :
    (synthesizeEach task path (tree :: trees)).Yields before bases after ↔
      ∃ model middle fields others, (synthesize task path tree).Yields before model middle ∧
        task.treeFields path tree = .ok fields ∧
        (synthesizeEach task path trees).Yields middle others after ∧
        bases = (model, fields) :: others := by
  rw [synthesizeEach]
  constructor
  · intro h
    rw [yields_bind] at h
    obtain ⟨model, middle, hModel, h⟩ := h
    rw [yields_bind] at h
    obtain ⟨fields, next, hFields, h⟩ := h
    rw [yields_ofExcept] at hFields
    obtain ⟨hFields, rfl⟩ := hFields
    rw [yields_bind] at h
    obtain ⟨others, last, hOthers, h⟩ := h
    rw [yields_pure] at h
    obtain ⟨rfl, rfl⟩ := h
    exact ⟨model, next, fields, others, hModel, hFields, hOthers, rfl⟩
  · rintro ⟨model, middle, fields, others, hModel, hFields, hOthers, rfl⟩
    rw [yields_bind]
    refine ⟨model, middle, hModel, ?_⟩
    rw [yields_bind]
    refine ⟨fields, middle, (yields_ofExcept _ _).mpr ⟨hFields, rfl⟩, ?_⟩
    rw [yields_bind]
    exact ⟨others, after, hOthers, (yields_pure _ _).mpr ⟨rfl, rfl⟩⟩

/-- The interface of a tree has the declarations of its fields and is kept under its name. -/
theorem Build.yields_assemble {bases : List (InterfaceModel × List MergedField)}
    (h : (assemble task path tree bases).Yields before model after) :
    ∃ fields declared asked name named, task.treeFields path tree = .ok fields ∧
      (declareFields task bases fields).Yields before declared asked ∧
      (requestName tree.key (task.interfaceName tree.name)).Yields asked name named ∧
      model = .mk declared tree.condition.name (distinctByName (bases.map Prod.fst)) name ∧
      after = named.addInterface tree.key model := by
  unfold assemble at h
  rw [yields_bind] at h
  obtain ⟨fields, start, hFields, h⟩ := h
  rw [yields_ofExcept] at hFields
  obtain ⟨hFields, rfl⟩ := hFields
  rw [yields_bind] at h
  obtain ⟨declared, asked, hDeclare, h⟩ := h
  rw [yields_bind] at h
  obtain ⟨name, named, hName, h⟩ := h
  dsimp only at h
  rw [yields_bind] at h
  obtain ⟨_, last, hModify, h⟩ := h
  rw [yields_modify] at hModify
  rw [yields_pure] at h
  obtain ⟨rfl, rfl⟩ := h
  exact ⟨fields, declared, asked, name, named, hFields, hDeclare, hName, rfl, hModify⟩

namespace Sound

/-- Interfaces of a sound session without those whose name occurred before are the same. -/
theorem mem_distinctByName (hSetting : task.toSetting.Admissible)
    (h : Sound task parents requests before) {models : List InterfaceModel}
    (hModels : ∀ model ∈ models, ∃ key, before.interface? key = some model) :
    model ∈ Build.distinctByName models ↔ model ∈ models := by
  refine Build.mem_distinctByName (fun first hFirst second hSecond hName => ?_) model
  obtain ⟨key, hKey⟩ := hModels first hFirst
  obtain ⟨other, hOther⟩ := hModels second hSecond
  exact (h.interface_eq hSetting hKey hOther hName).2

/-- A registered model is owned by any key that was given its name. -/
theorem owns_of_name (hSetting : task.toSetting.Admissible)
    (h : Sound task parents requests before) {name : String} {known : Model}
    (hKnown : before.graph.get? name = some known) {key : OriginKey}
    (hName : before.names.nameOf? key = some name)
    (hIn : key.inFile task.document.file = key) :
    Owns task.toSetting parents before key known := by
  obtain ⟨other, hOwns, hOther⟩ := h.owned name known hKnown
  rw [h.names.key_eq hName hOther hIn (h.inFile_of_owns hSetting hOwns)]
  exact hOwns

theorem contains_interface (h : Sound task parents requests before) {key : OriginKey}
    (hFound : before.interface? key = some model) :
    before.graph.contains model.name = true :=
  (Graph.contains_iff _ _).mpr ⟨_, h.kept key model hFound⟩

/-- A new interface is kept for its tree. -/
theorem addInterface (hSetting : task.toSetting.Admissible)
    (h : Sound task parents requests before) (hParent : parent ∈ parents)
    (hGrows : parent.Grows task.toSetting tree) (hRooted : Rooted task.toSetting requests tree)
    (hNew : before.interface? tree.key = none)
    (hRepresents : Represents task requests before tree model) :
    Sound task parents requests (before.addInterface tree.key model) ∧
      Onward task.toSetting parent before (before.addInterface tree.key model) requests
        requests := by
  have hActive : parents ⊆ parents := List.Subset.refl _
  have hKeeps : before.Keeps (before.addInterface tree.key model) :=
    ⟨fun _ _ hKnown => hKnown,
      fun _ _ hFound => Session.interface?_addInterface_of_some hNew hFound⟩
  have hBases : ∀ reference ∈ (Model.interface model).references,
      before.graph.contains reference.name = true := by
    intro reference hReference
    obtain ⟨base, hBase, rfl⟩ := List.mem_map.mp hReference
    obtain ⟨child, _, hFound⟩ := hRepresents.bases base hBase
    exact h.contains_interface hFound
  have hGraph : ∀ name known, before.graph.get? name = some known →
      (before.addInterface tree.key model).graph.get? name = some known :=
    fun name known hKnown => Graph.get?_register_of_some hBases hKnown
  -- The name is that of the tree, so a model under it would be the tree's own interface.
  have hFree : before.graph.contains model.name = false := by
    rw [← Bool.not_eq_true, Graph.contains_iff]
    rintro ⟨known, hKnown⟩
    have hOwns := h.owns_of_name hSetting hKnown hRepresents.name
      (hRooted.inFile_key (h.known hSetting))
    obtain ⟨found, _, hFound⟩ := interface_of_owns hRooted hOwns
    rw [hNew] at hFound
    cases hFound
  have hRegistered : ∀ name, (before.addInterface tree.key model).graph.get? name =
      if name = model.name then some (.interface model) else before.graph.get? name := by
    intro name
    change (before.graph.register (.interface model)).get? name = _
    rw [Graph.get?_register hBases]
    simp [Model.name, hFree]
  refine ⟨⟨h.names, h.history, h.active, h.requested, h.returnTrees, h.named, ?_, ?_, ?_,
    Graph.keyed_registerQueue h.keyed, ?_⟩,
    hKeeps, hGraph, [], by simp, ?_, by simp⟩
  · intro request hRequest hNone
    exact h.placed_mono hActive (List.Subset.refl _) hKeeps hRequest hNone
  · intro key found hFound
    rw [Session.interface?_addInterface] at hFound
    split at hFound
    · rename_i hSame
      cases hFound
      exact ⟨tree, hSame.symm, hRooted, ⟨parent, hParent, hGrows⟩,
        hRepresents.mono (List.Subset.refl _) hKeeps⟩
    · exact h.represents_mono hActive (List.Subset.refl _) hKeeps hFound
  · intro key found hFound
    rw [Session.interface?_addInterface] at hFound
    split at hFound
    · cases hFound
      rw [hRegistered, if_pos rfl]
    · exact hGraph _ _ (h.kept key found hFound)
  · intro name known hKnown
    rw [hRegistered] at hKnown
    split at hKnown
    · rename_i hSame
      cases hKnown
      refine ⟨tree.key, .interface ?_, hSame ▸ hRepresents.name⟩
      rw [Session.interface?_addInterface, if_pos rfl]
    · exact h.owned_mono hActive hKeeps hKnown
  · rw [List.append_nil]
    rfl

/-- An interface with the name of the tree, the interfaces of its children as bases and the
declarations of its fields represents the tree. -/
theorem represents_assembled (hSetting : task.toSetting.Admissible)
    (h : Sound task parents requests before) {name : String} {fields : List MergedField}
    {bases : List (InterfaceModel × List MergedField)} {declared : List FieldModel}
    (hName : before.names.nameOf? tree.key = some name)
    (hFields : task.treeFields path tree = .ok fields)
    (hBases : List.Forall₂ (fun child base => before.interface? child.key = some base.1 ∧
      task.treeFields path child = .ok base.2) tree.children bases)
    (hEach : ∀ field ∈ declared, ∃ merged ∈ fields, Declares requests merged field)
    (hCovered : ∀ merged ∈ fields,
      (∃ field ∈ declared, field.responseName = merged.responseKey) ∨
        ∃ base ∈ bases, merged.responseKey ∈ base.1.fieldNames) :
    Represents task requests before tree
      (.mk declared tree.condition.name (Build.distinctByName (bases.map Prod.fst)) name) := by
  have hModels : ∀ model ∈ bases.map Prod.fst, ∃ child ∈ tree.children,
      before.interface? child.key = some model := by
    intro model hModel
    obtain ⟨base, hMem, rfl⟩ := List.mem_map.mp hModel
    obtain ⟨child, hChild, hFound, _⟩ := Outcome.exists_left hBases hMem
    exact ⟨child, hChild, hFound⟩
  have hDistinct : ∀ model, model ∈ Build.distinctByName (bases.map Prod.fst) ↔
      model ∈ bases.map Prod.fst := by
    intro model
    refine h.mem_distinctByName hSetting fun other hOther => ?_
    obtain ⟨child, _, hFound⟩ := hModels other hOther
    exact ⟨child.key, hFound⟩
  refine ⟨hName, rfl, ?_, ?_, path, fields, hFields, hEach, ?_⟩
  · intro base hMem
    exact hModels base ((hDistinct base).mp hMem)
  · intro child hChild
    obtain ⟨base, hMem, hFound, _⟩ := Outcome.exists_right hBases hChild
    exact ⟨base.1, (hDistinct _).mpr (List.mem_map_of_mem hMem), hFound⟩
  · intro merged hMerged
    rw [mem_fieldNames]
    rcases hCovered merged hMerged with hField | ⟨base, hMem, hKnown⟩
    · exact .inl hField
    · exact .inr ⟨base.1, (hDistinct _).mpr (List.mem_map_of_mem hMem), hKnown⟩

/-- The interface of a tree is made from those of its children. -/
theorem assemble (hSetting : task.toSetting.Admissible)
    (h : Sound task parents requests before) (hParent : parent ∈ parents)
    (hGrows : parent.Grows task.toSetting tree) (hNew : before.interface? tree.key = none)
    {bases : List (InterfaceModel × List MergedField)}
    (hBases : List.Forall₂ (fun child base => before.interface? child.key = some base.1 ∧
      task.treeFields path child = .ok base.2) tree.children bases)
    (hYields : (Build.assemble task path tree bases).Yields before model after) :
    ∃ others, Sound task parents others after ∧
      Onward task.toSetting parent before after requests others ∧
      after.interface? tree.key = some model ∧
      ∀ key, key ≠ tree.key → after.interface? key = before.interface? key := by
  obtain ⟨fields, declared, asked, name, named, hFields, hDeclare, hName, rfl, rfl⟩ :=
    Build.yields_assemble hYields
  have hTree : Assembling task parents parent before path tree fields bases :=
    ⟨hParent, hGrows, hFields, hBases⟩
  have hRooted := h.rooted_of_assembling hSetting hTree
  obtain ⟨others, hDeclared⟩ := h.declareFields hSetting hTree (List.Subset.refl _) hDeclare
  obtain ⟨hNamed, hOnward, hKey, hSame, _⟩ := hDeclared.sound.requestName parent hName
  have hInterfaces : ∀ key, named.interface? key = before.interface? key := by
    intro key
    rw [Session.interface?, hSame, hDeclared.interfaces]
    rfl
  have hRepresents := hNamed.represents_assembled hSetting hKey hFields
    (by simpa only [hInterfaces] using hBases) hDeclared.each hDeclared.covered
  obtain ⟨hSound, hOnward'⟩ := hNamed.addInterface hSetting hParent hGrows
    (hRooted.mono hDeclared.onward.subset) ((hInterfaces _).trans hNew) hRepresents
  refine ⟨others, hSound, (hDeclared.onward.trans hOnward).trans hOnward', ?_, ?_⟩
  · rw [Session.interface?_addInterface, if_pos rfl]
  · intro key hOther
    rw [Session.interface?_addInterface, if_neg hOther, hInterfaces]

end Sound

/-- Every part of the tree that has no interface yet comes about by the request. -/
def Growing (task : Task) (parent : Request) (session : Session) (tree : FragmentTree) : Prop :=
  ∀ subtree, FragmentTree.Within subtree tree → session.interface? subtree.key = none →
    parent.Grows task.toSetting subtree

theorem Growing.within {subtree : FragmentTree} (h : Growing task parent before tree)
    (hWithin : FragmentTree.Within subtree tree) : Growing task parent before subtree :=
  fun inner hInner => h inner (hInner.trans hWithin)

theorem Growing.onward {others : List Request} (h : Growing task parent before tree)
    (hOnward : Onward task.toSetting parent before after requests others) :
    Growing task parent after tree := by
  intro subtree hWithin hNone
  refine h subtree hWithin ?_
  cases hFound : before.interface? subtree.key with
  | none => rfl
  | some model =>
      rw [hOnward.interfaces _ _ hFound] at hNone
      cases hNone

/-- The interface of a growing tree is made and kept, and no interface is kept for a key that is
not in the tree. -/
def Synthesizes (task : Task) (parents : List Request) (parent : Request) (path : ModelPath)
    (tree : FragmentTree) : Prop :=
  ∀ {requests before model after}, Sound task parents requests before →
    Growing task parent before tree →
    (Build.synthesize task path tree).Yields before model after →
    ∃ others, Sound task parents others after ∧
      Onward task.toSetting parent before after requests others ∧
      after.interface? tree.key = some model ∧
      ∀ key, (∀ subtree, FragmentTree.Within subtree tree → subtree.key ≠ key) →
        after.interface? key = before.interface? key

namespace Sound

theorem synthesizeEach {trees : List FragmentTree}
    (hEach : ∀ tree ∈ trees, Synthesizes task parents parent path tree)
    (h : Sound task parents requests before)
    (hGrowing : ∀ tree ∈ trees, Growing task parent before tree)
    {bases : List (InterfaceModel × List MergedField)}
    (hYields : (Build.synthesizeEach task path trees).Yields before bases after) :
    ∃ others, Sound task parents others after ∧
      Onward task.toSetting parent before after requests others ∧
      List.Forall₂ (fun child base => after.interface? child.key = some base.1 ∧
        task.treeFields path child = .ok base.2) trees bases ∧
      ∀ key, (∀ tree ∈ trees, ∀ subtree, FragmentTree.Within subtree tree → subtree.key ≠ key) →
        after.interface? key = before.interface? key := by
  induction trees generalizing requests before bases with
  | nil =>
      rw [Build.synthesizeEach, Build.yields_pure] at hYields
      obtain ⟨rfl, rfl⟩ := hYields
      exact ⟨requests, h, .refl _ _, .nil, fun _ _ => rfl⟩
  | cons tree rest ih =>
      obtain ⟨model, middle, fields, more, hModel, hFields, hMore, rfl⟩ :=
        Build.yields_synthesizeEach_cons.mp hYields
      obtain ⟨others, hSound, hOnward, hFound, hElse⟩ :=
        hEach tree List.mem_cons_self h (hGrowing tree List.mem_cons_self) hModel
      obtain ⟨others', hSound', hOnward', hRest, hElse'⟩ :=
        ih (fun other hOther => hEach other (List.mem_cons_of_mem _ hOther)) hSound
          (fun other hOther => (hGrowing other (List.mem_cons_of_mem _ hOther)).onward hOnward)
          hMore
      refine ⟨others', hSound', hOnward.trans hOnward',
        .cons ⟨hOnward'.interfaces _ _ hFound, hFields⟩ hRest, ?_⟩
      intro key hKey
      rw [hElse' key fun other hOther => hKey other (List.mem_cons_of_mem _ hOther)]
      exact hElse key (hKey tree List.mem_cons_self)

end Sound

theorem synthesizes (hSetting : task.toSetting.Admissible) (hParent : parent ∈ parents)
    (tree : FragmentTree) : Synthesizes task parents parent path tree := by
  induction tree using FragmentTree.induct with
  | node tree ih =>
      intro requests before model after h hGrowing hYields
      rcases Build.yields_synthesize.mp hYields with
        ⟨hKnown, rfl⟩ | ⟨hNone, bases, middle, hBases, hYields⟩
      · exact ⟨requests, h, .refl _ _, hKnown, fun _ _ => rfl⟩
      · have hInner : ∀ child ∈ tree.children, Growing task parent before child :=
          fun child hChild => hGrowing.within (.inner hChild (.self _))
        obtain ⟨others, hSound, hOnward, hEach, hElse⟩ := h.synthesizeEach ih hInner hBases
        have hNew : middle.interface? tree.key = none := by
          rw [hElse tree.key fun child hChild subtree hWithin =>
            FragmentTree.key_ne_of_within_child hChild hWithin]
          exact hNone
        obtain ⟨others', hSound', hOnward', hFound, hElse'⟩ := hSound.assemble hSetting hParent
          (hGrowing tree (.self _) hNone) hNew hEach hYields
        refine ⟨others', hSound', hOnward.trans hOnward', hFound, ?_⟩
        intro key hKey
        rw [hElse' key (hKey tree (.self _)).symm, hElse key]
        exact fun child hChild subtree hWithin => hKey subtree (.inner hChild hWithin)

end ResponseModels
