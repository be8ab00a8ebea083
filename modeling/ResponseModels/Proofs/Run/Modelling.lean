import ResponseModels.Model.Selected
import ResponseModels.Proofs.Run.Synthesis

/-! Modelling one request. Its return tree gets an interface, its type cases get classes, and a
parser reads the possible types into them. The response keys of a class are those of the return
tree and those of the fragments that its case has beyond it. -/
namespace ResponseModels

open GraphQL

variable {task : Task} {parents requests : List Request} {before after : Session}
  {request : Request}

namespace Setting

/-- The type cases are the selections collected at each possible type. -/
theorem typeCases_eq_ok {setting : Setting} (hSetting : setting.Admissible)
    {declared : SchemaType} {selections : List Selection} {path : ModelPath}
    {cases : List Collected} (h : setting.typeCases declared selections path = .ok cases) :
    declared.isComposite = true ∧
      List.Forall₂ (fun object case =>
          setting.collectIn declared (.object object) selections path = .ok case)
        (setting.schema.possibleTypes declared.name) cases := by
  unfold typeCases at h
  rw [Outcome.bind_eq_ok_iff] at h
  obtain ⟨types, hTypes, hCases⟩ := h
  unfold Schema.requirePossibleTypes at hTypes
  split at hTypes
  · cases hTypes
  · rename_i hComposite
    have hPossible : types = setting.schema.possibleTypes declared.name := by
      split at hTypes
      · cases hTypes
      · cases hTypes
        rfl
    subst hPossible
    refine ⟨by simpa using hComposite, ?_⟩
    have hEach := Outcome.mapM_eq_ok hCases
    rw [List.forall₂_iff_get] at hEach ⊢
    refine ⟨hEach.1, fun index hLeft hRight => ?_⟩
    have hCase := hEach.2 index hLeft hRight
    have hMem := List.get_mem (setting.schema.possibleTypes declared.name) ⟨index, hLeft⟩
    unfold typeCase at hCase
    rwa [hSetting.schema.wellFormed.type?_of_possible hMem] at hCase

theorem collectIn_type {setting : Setting} {scope type : SchemaType}
    {selections : List Selection} {path : ModelPath} {collected : Collected}
    (h : setting.collectIn scope type selections path = .ok collected) :
    collected.type = type := by
  rw [collectIn, Outcome.bind_eq_ok_iff] at h
  obtain ⟨gathered, _, h⟩ := h
  rw [Outcome.pure_eq_ok_iff] at h
  rw [h]

end Setting

namespace FragmentTree

/-- The fragments beyond the known ones are fragments in the tree whose keys are not known. -/
theorem mem_extras {known : List OriginKey} {tree extra : FragmentTree}
    (h : extra ∈ tree.extras known) :
    Within extra tree ∧ extra.kind ≠ .synthetic ∧ extra.key ∉ known := by
  induction tree using induct with
  | node tree ih =>
      by_cases hKind : tree.kind = .synthetic
      · rw [extras_synthetic known hKind, List.mem_flatMap] at h
        obtain ⟨child, hChild, hExtra⟩ := h
        obtain ⟨hWithin, hRest⟩ := ih child hChild hExtra
        exact ⟨.inner hChild hWithin, hRest⟩
      · rw [extras_fragment known hKind] at h
        split at h
        · cases h
        · rename_i hNew
          rw [List.mem_singleton.mp h]
          exact ⟨.self _, hKind, hNew⟩

end FragmentTree

namespace Request

/-- The type cases of a request: its selections collected at each possible type. -/
def CasesIn (request : Request) (setting : Setting) (cases : List Collected) : Prop :=
  List.Forall₂ (fun object case =>
      setting.collectIn request.declared (.object object) request.selections request.path =
        .ok case)
    (setting.schema.possibleTypes request.declared.name) cases

/-- The tree of one type case of a request. -/
def caseTree (request : Request) (case : Collected) : FragmentTree :=
  .node .synthetic (.typeCase case.type.name request.locations) case.type.name case.type
    case.selections case.fragments

/-- The fragments that a type case has beyond the return tree. -/
def caseExtras (request : Request) (case : Collected) : List FragmentTree :=
  ((request.caseTree case).hoist case.type.name).extras request.returnTree.allKeys

theorem within_of_mem_caseExtras {case : Collected} {tree : FragmentTree}
    (h : tree ∈ request.caseExtras case) :
    ∃ fragment ∈ case.fragments, FragmentTree.Within tree fragment := by
  obtain ⟨hWithin, hKind, _⟩ := FragmentTree.mem_extras h
  have hInside := hWithin.trans (FragmentTree.within_hoist _ _)
  rcases FragmentTree.within_iff.mp hInside with rfl | hChild
  · exact absurd rfl hKind
  · exact hChild

end Request

/-- The response keys of a class for a type case: those of the return tree, and those of the
fragments beyond it that apply to all types that the class stands for. -/
def Offers (setting : Setting) (request : Request) (case : Collected)
    (represented : List SchemaType) (model : ClassModel) : Prop :=
  ∀ key, key ∈ InterfaceModel.fieldNamesOf model.implements ↔
    request.returnTree.Exposes key ∨ ∃ tree ∈ request.caseExtras case,
      (∀ type ∈ represented, setting.schema.applies tree.condition type = true) ∧
        tree.Exposes key

namespace Build

/-- The first tree is left out, or has its interface made, as it applies to the represented
types. -/
theorem yields_extraInterfaces_cons {path : ModelPath} {represented : List SchemaType}
    {tree : FragmentTree} {rest : List FragmentTree} {models : List InterfaceModel}
    (h : (extraInterfaces task path represented (tree :: rest)).Yields before models after) :
    ((∀ type ∈ represented, task.schema.applies tree.condition type = true) ∧
        ∃ model middle more, (synthesize task path tree).Yields before model middle ∧
          (extraInterfaces task path represented rest).Yields middle more after ∧
          models = model :: more) ∨
      (¬ ∀ type ∈ represented, task.schema.applies tree.condition type = true) ∧
        (extraInterfaces task path represented rest).Yields before models after := by
  rw [extraInterfaces] at h
  split at h
  · rename_i hApplies
    rw [yields_bind] at h
    obtain ⟨model, middle, hModel, h⟩ := h
    rw [yields_bind] at h
    obtain ⟨more, last, hMore, h⟩ := h
    rw [yields_pure] at h
    obtain ⟨rfl, rfl⟩ := h
    exact .inl ⟨List.all_eq_true.mp hApplies, model, middle, more, hModel, hMore, rfl⟩
  · rename_i hApplies
    exact .inr ⟨fun hAll => hApplies (List.all_eq_true.mpr hAll), h⟩

theorem yields_caseClasses_cons {returnType : InterfaceModel} {case : Collected}
    {rest : List Collected} {entries : List (String × ClassModel)}
    (h : (caseClasses task request returnType (case :: rest)).Yields before entries after) :
    ∃ model middle more, (caseClass task request returnType case [case.type] case.type.name
        case.type.name).Yields before model middle ∧
      (caseClasses task request returnType rest).Yields middle more after ∧
      entries = (case.type.name, model) :: more := by
  rw [caseClasses, yields_bind] at h
  obtain ⟨model, middle, hModel, h⟩ := h
  rw [yields_bind] at h
  obtain ⟨more, last, hMore, h⟩ := h
  rw [yields_pure] at h
  obtain ⟨rfl, rfl⟩ := h
  exact ⟨model, middle, more, hModel, hMore, rfl⟩

/-- The class of a type case implements the return type and the interfaces of the fragments beyond
it, and is registered under the name of its key. -/
theorem yields_caseClass {returnType : InterfaceModel} {case : Collected}
    {represented : List SchemaType} {type proposed : String} {model : ClassModel}
    (h : (caseClass task request returnType case represented type proposed).Yields before model
      after) :
    ∃ extras middle name named,
      (extraInterfaces task request.path represented (request.caseExtras case)).Yields before extras
        middle ∧
      (requestName (.leaf (.modelClass type request.locations)) proposed).Yields middle name named ∧
      model = ⟨type, distinctByName (returnType :: extras), name⟩ ∧
      after = named.register (.class model) := by
  unfold caseClass at h
  dsimp only at h
  rw [yields_bind] at h
  obtain ⟨extras, middle, hExtras, h⟩ := h
  rw [yields_bind] at h
  obtain ⟨name, named, hName, h⟩ := h
  rw [yields_bind] at h
  obtain ⟨_, last, hRegister, h⟩ := h
  rw [yields_register] at hRegister
  rw [yields_pure] at h
  obtain ⟨rfl, rfl⟩ := h
  exact ⟨extras, middle, name, named, hExtras, hName, rfl, hRegister⟩

theorem yields_resultParser {returnType : InterfaceModel} {classes : List ClassModel}
    {discriminators : OrderedMap String} {selected : SelectedModel}
    (h : (resultParser task request returnType classes discriminators).Yields before selected
      after) :
    ∃ name proposed named,
      (requestName (.leaf (.resultParser request.locations)) proposed).Yields before name named ∧
      selected = ⟨⟨classes, discriminators, name, request.path, returnType, request.source⟩,
        returnType⟩ ∧
      after = named.register (.parser selected.parser) := by
  unfold resultParser at h
  rw [yields_bind] at h
  obtain ⟨name, named, hName, h⟩ := h
  dsimp only at h
  rw [yields_bind] at h
  obtain ⟨_, last, hRegister, h⟩ := h
  rw [yields_register] at hRegister
  rw [yields_pure] at h
  obtain ⟨rfl, rfl⟩ := h
  exact ⟨name, _, named, hName, rfl, hRegister⟩

end Build

namespace Sound

/-- A model is registered under the name of its key, unless one of that key is there. -/
theorem register (hSetting : task.toSetting.Admissible) (h : Sound task parents requests before)
    (parent : Request) {key : OriginKey} {model : Model}
    (hOwns : Owns task.toSetting parents before key model)
    (hName : before.names.nameOf? key = some model.name)
    (hReferences : ∀ reference ∈ model.references,
      before.graph.contains reference.name = true) :
    Sound task parents requests (before.register model) ∧
      Onward task.toSetting parent before (before.register model) requests requests ∧
      ∃ known, (before.register model).graph.get? model.name = some known ∧
        Owns task.toSetting parents before key known := by
  have hGraph : ∀ name known, before.graph.get? name = some known →
      (before.register model).graph.get? name = some known :=
    fun name known hKnown => Graph.get?_register_of_some hReferences hKnown
  have hActive : parents ⊆ parents := List.Subset.refl _
  have hAll : requests ⊆ requests := List.Subset.refl _
  have hKeeps : before.Keeps (before.register model) :=
    ⟨fun _ _ hKnown => hKnown, fun _ _ hFound => hFound⟩
  refine ⟨⟨h.names, h.history, h.active, h.requested, h.returnTrees, h.named, ?_, ?_,
    fun key found hFound => hGraph _ _ (h.kept key found hFound),
    Graph.keyed_registerQueue h.keyed, ?_⟩,
    ⟨hKeeps, hGraph, [], by simp⟩, ?_⟩
  · intro request hRequest hNone
    exact h.placed_mono hActive hAll hKeeps hRequest hNone
  · intro key found hFound
    exact h.represents_mono hActive hAll hKeeps hFound
  · intro name known hKnown
    change (before.graph.register model).get? name = some known at hKnown
    rw [Graph.get?_register hReferences] at hKnown
    split at hKnown
    · rename_i hSame
      cases hKnown
      exact ⟨key, hOwns.mono hActive hKeeps, hSame.1 ▸ hName⟩
    · exact h.owned_mono hActive hKeeps hKnown
  · obtain ⟨known, hKnown, hCases⟩ := Graph.get?_register_self hReferences
    refine ⟨known, hKnown, ?_⟩
    rcases hCases with rfl | hOld
    · exact hOwns
    · exact h.owns_of_name hSetting hOld hName (h.inFile_of_owns hSetting hOwns)

/-- The interfaces of those trees that apply to all represented types. -/
theorem extraInterfaces (hSetting : task.toSetting.Admissible)
    (h : Sound task parents requests before) (hParent : request ∈ parents) {path : ModelPath}
    {represented : List SchemaType} {trees : List FragmentTree}
    (hGrowing : ∀ tree ∈ trees, Growing task request before tree)
    {models : List InterfaceModel}
    (hYields : (Build.extraInterfaces task path represented trees).Yields before models after) :
    ∃ others, Sound task parents others after ∧
      Onward task.toSetting request before after requests others ∧
      (∀ model ∈ models, ∃ tree ∈ trees,
        (∀ type ∈ represented, task.schema.applies tree.condition type = true) ∧
          after.interface? tree.key = some model) ∧
      ∀ tree ∈ trees, (∀ type ∈ represented, task.schema.applies tree.condition type = true) →
        ∃ model ∈ models, after.interface? tree.key = some model := by
  induction trees generalizing requests before models with
  | nil =>
      rw [Build.extraInterfaces, Build.yields_pure] at hYields
      obtain ⟨rfl, rfl⟩ := hYields
      exact ⟨requests, h, .refl _ _, by simp, by simp⟩
  | cons tree rest ih =>
      rcases Build.yields_extraInterfaces_cons hYields with
        ⟨hApplies, model, middle, more, hModel, hMore, rfl⟩ | ⟨hApplies, hYields⟩
      · obtain ⟨others, hSound, hOnward, hFound, _⟩ :=
          synthesizes hSetting hParent tree h (hGrowing tree List.mem_cons_self) hModel
        obtain ⟨others', hSound', hOnward', hFrom, hEach⟩ := ih hSound (fun other hOther =>
          (hGrowing other (List.mem_cons_of_mem _ hOther)).onward hOnward) hMore
        have hKept := hOnward'.interfaces _ _ hFound
        refine ⟨others', hSound', hOnward.trans hOnward', ?_, ?_⟩
        · intro other hOther
          rcases List.mem_cons.mp hOther with rfl | hOther
          · exact ⟨tree, List.mem_cons_self, hApplies, hKept⟩
          · obtain ⟨source, hSource, hRest⟩ := hFrom other hOther
            exact ⟨source, List.mem_cons_of_mem _ hSource, hRest⟩
        · intro source hSource hAll
          rcases List.mem_cons.mp hSource with rfl | hSource
          · exact ⟨model, List.mem_cons_self, hKept⟩
          · obtain ⟨other, hOther, hInterface⟩ := hEach source hSource hAll
            exact ⟨other, List.mem_cons_of_mem _ hOther, hInterface⟩
      · obtain ⟨others, hSound, hOnward, hFrom, hEach⟩ := ih h
          (fun other hOther => hGrowing other (List.mem_cons_of_mem _ hOther)) hYields
        refine ⟨others, hSound, hOnward, ?_, ?_⟩
        · intro other hOther
          obtain ⟨source, hSource, hRest⟩ := hFrom other hOther
          exact ⟨source, List.mem_cons_of_mem _ hSource, hRest⟩
        · intro source hSource hAll
          rcases List.mem_cons.mp hSource with rfl | hSource
          · exact absurd hAll hApplies
          · exact hEach source hSource hAll

/-- A type case of a request: its selections collected at a possible type. -/
def IsCase (setting : Setting) (request : Request) (case : Collected) : Prop :=
  ∃ object ∈ setting.schema.possibleTypes request.declared.name,
    setting.collectIn request.declared (.object object) request.selections request.path = .ok case

theorem growing_caseExtras {case : Collected} (hCase : IsCase task.toSetting request case)
    {tree : FragmentTree} (hTree : tree ∈ request.caseExtras case) :
    Growing task request before tree := by
  intro subtree hWithin _
  obtain ⟨object, hObject, hCollected⟩ := hCase
  obtain ⟨fragment, hFragment, hInside⟩ := Request.within_of_mem_caseExtras hTree
  exact .fragment (.inr ⟨object, hObject, rfl⟩) hCollected hFragment (hWithin.trans hInside)

/-- The interface of a fragment that a case has beyond the return tree exposes what the fragment
does. -/
theorem mem_fieldNames_caseExtras (hSetting : task.toSetting.Admissible)
    (h : Sound task parents requests before) (hParent : request ∈ parents) {case : Collected}
    (hCase : IsCase task.toSetting request case) {tree : FragmentTree}
    (hTree : tree ∈ request.caseExtras case) {model : InterfaceModel}
    (hFound : before.interface? tree.key = some model) (key : String) :
    key ∈ model.fieldNames ↔ tree.Exposes key := by
  obtain ⟨object, hObject, hCollected⟩ := hCase
  obtain ⟨fragment, hFragment, hInside⟩ := Request.within_of_mem_caseExtras hTree
  have hRequest := h.known hSetting request (h.active hParent)
  have hRooted := hRequest.rooted_of_grows hSetting (h.active hParent)
    (.fragment (.inr ⟨object, hObject, rfl⟩) hCollected hFragment hInside)
  exact h.mem_fieldNames_iff hSetting hRooted hFound key

/-- A class that implements the interface of the return tree and those of the fragments beyond it
offers the response keys of the case. -/
theorem offers (hSetting : task.toSetting.Admissible)
    (h : Sound task parents requests before) (hParent : request ∈ parents) {case : Collected}
    (hCase : IsCase task.toSetting request case) {returnType : InterfaceModel}
    (hReturn : before.interface? request.returnTree.key = some returnType)
    {represented : List SchemaType} {extras : List InterfaceModel}
    (hFrom : ∀ other ∈ extras, ∃ tree ∈ request.caseExtras case,
      (∀ type ∈ represented, task.schema.applies tree.condition type = true) ∧
        before.interface? tree.key = some other)
    (hEach : ∀ tree ∈ request.caseExtras case,
      (∀ type ∈ represented, task.schema.applies tree.condition type = true) →
        ∃ other ∈ extras, before.interface? tree.key = some other)
    {model : ClassModel}
    (hImplements : ∀ other, other ∈ model.implements ↔ other ∈ returnType :: extras) :
    Offers task.toSetting request case represented model := by
  intro key
  have hRequest := h.known hSetting request (h.active hParent)
  have hReturnNames := h.mem_fieldNames_iff hSetting hRequest.rooted hReturn key
  rw [mem_fieldNamesOf]
  constructor
  · rintro ⟨other, hOther, hField⟩
    rcases List.mem_cons.mp ((hImplements other).mp hOther) with rfl | hOther
    · exact .inl (hReturnNames.mp hField)
    · obtain ⟨tree, hTree, hAll, hFound⟩ := hFrom other hOther
      have hNames := h.mem_fieldNames_caseExtras hSetting hParent hCase hTree hFound key
      exact .inr ⟨tree, hTree, hAll, hNames.mp hField⟩
  · rintro (hField | ⟨tree, hTree, hAll, hField⟩)
    · exact ⟨returnType, (hImplements _).mpr List.mem_cons_self, hReturnNames.mpr hField⟩
    · obtain ⟨other, hOther, hFound⟩ := hEach tree hTree hAll
      have hNames := h.mem_fieldNames_caseExtras hSetting hParent hCase hTree hFound key
      exact ⟨other, (hImplements _).mpr (List.mem_cons_of_mem _ hOther), hNames.mpr hField⟩

/-- The class of a type case. -/
theorem caseClass (hSetting : task.toSetting.Admissible)
    (h : Sound task parents requests before) (hParent : request ∈ parents)
    {returnType : InterfaceModel}
    (hReturn : before.interface? request.returnTree.key = some returnType)
    {case : Collected} (hCase : IsCase task.toSetting request case)
    {represented : List SchemaType} {type proposed : String} {model : ClassModel}
    (hYields : (Build.caseClass task request returnType case represented type proposed).Yields
      before model after) :
    ∃ others, Sound task parents others after ∧
      Onward task.toSetting request before after requests others ∧
      after.graph.contains model.name = true ∧
      Offers task.toSetting request case represented model := by
  obtain ⟨extras, middle, name, named, hExtras, hName, rfl, rfl⟩ := Build.yields_caseClass hYields
  obtain ⟨others, hSound, hOnward, hFrom, hEach⟩ := h.extraInterfaces hSetting hParent
    (fun tree hTree => growing_caseExtras hCase hTree) hExtras
  obtain ⟨hNamed, hOnward', hKey, _, _⟩ := hSound.requestName request hName
  have hReturn' := hOnward'.interfaces _ _ (hOnward.interfaces _ _ hReturn)
  have hModels : ∀ other ∈ returnType :: extras, ∃ key, named.interface? key = some other := by
    intro other hOther
    rcases List.mem_cons.mp hOther with rfl | hOther
    · exact ⟨_, hReturn'⟩
    · obtain ⟨tree, _, _, hFound⟩ := hFrom other hOther
      exact ⟨tree.key, hOnward'.interfaces _ _ hFound⟩
  have hImplements : ∀ other, other ∈ Build.distinctByName (returnType :: extras) ↔
      other ∈ returnType :: extras := fun other => hNamed.mem_distinctByName hSetting hModels
  have hReferences : ∀ reference ∈
      (Model.class ⟨type, Build.distinctByName (returnType :: extras), name⟩).references,
      named.graph.contains reference.name = true := by
    intro reference hReference
    obtain ⟨base, hBase, rfl⟩ := List.mem_map.mp hReference
    obtain ⟨key, hFound⟩ := hModels base ((hImplements base).mp hBase)
    exact hNamed.contains_interface hFound
  obtain ⟨hDone, hOnward'', known, hKnown, _⟩ :=
    hNamed.register hSetting request (.caseClass hParent) hKey hReferences
  refine ⟨others, hDone, (hOnward.trans hOnward').trans hOnward'',
    (Graph.contains_iff _ _).mpr ⟨known, hKnown⟩,
    hNamed.offers hSetting hParent hCase hReturn' ?_ ?_ hImplements⟩
  · intro other hOther
    obtain ⟨tree, hTree, hAll, hFound⟩ := hFrom other hOther
    exact ⟨tree, hTree, hAll, hOnward'.interfaces _ _ hFound⟩
  · intro tree hTree hAll
    obtain ⟨other, hOther, hFound⟩ := hEach tree hTree hAll
    exact ⟨other, hOther, hOnward'.interfaces _ _ hFound⟩

/-- A class for each type case. -/
theorem caseClasses (hSetting : task.toSetting.Admissible)
    (h : Sound task parents requests before) (hParent : request ∈ parents)
    {returnType : InterfaceModel}
    (hReturn : before.interface? request.returnTree.key = some returnType)
    {cases : List Collected} (hCases : ∀ case ∈ cases, IsCase task.toSetting request case)
    {entries : List (String × ClassModel)}
    (hYields : (Build.caseClasses task request returnType cases).Yields before entries after) :
    ∃ others, Sound task parents others after ∧
      Onward task.toSetting request before after requests others ∧
      (∀ entry ∈ entries, after.graph.contains entry.2.name = true) ∧
      List.Forall₂ (fun case entry => entry.1 = case.type.name ∧
        Offers task.toSetting request case [case.type] entry.2) cases entries := by
  induction cases generalizing requests before entries with
  | nil =>
      rw [Build.caseClasses, Build.yields_pure] at hYields
      obtain ⟨rfl, rfl⟩ := hYields
      exact ⟨requests, h, .refl _ _, by simp, .nil⟩
  | cons case rest ih =>
      obtain ⟨model, middle, more, hModel, hMore, rfl⟩ := Build.yields_caseClasses_cons hYields
      obtain ⟨others, hSound, hOnward, hContains, hOffers⟩ :=
        h.caseClass hSetting hParent hReturn (hCases case List.mem_cons_self) hModel
      obtain ⟨others', hSound', hOnward', hContains', hRest⟩ := ih hSound
        (hOnward.interfaces _ _ hReturn)
        (fun other hOther => hCases other (List.mem_cons_of_mem _ hOther)) hMore
      refine ⟨others', hSound', hOnward.trans hOnward', ?_, .cons ⟨rfl, hOffers⟩ hRest⟩
      intro entry hEntry
      rcases List.mem_cons.mp hEntry with rfl | hEntry
      · obtain ⟨known, hKnown⟩ := (Graph.contains_iff _ _).mp hContains
        exact (Graph.contains_iff _ _).mpr ⟨known, hOnward'.graph _ _ hKnown⟩
      · exact hContains' entry hEntry

/-- What is owned by a request's parser key is a parser of the request. -/
theorem parser_of_owns (h : Sound task parents requests before) (hParent : request ∈ parents)
    {model : Model} (hOwns : Owns task.toSetting parents before
      (.leaf (.resultParser request.locations)) model) :
    ∃ parser, model = .parser parser ∧ Reads task.toSetting before request parser := by
  generalize hOwner : OriginKey.leaf (.resultParser request.locations) = key at hOwns
  cases hOwns with
  | interface hFound =>
      obtain ⟨tree, rfl, hRooted, _⟩ := h.represents _ _ hFound
      have hHead := (hRooted tree (.self _)).origin_cases
      rw [tree.key_eq] at hOwner
      injection hOwner with hOrigin
      have hSame : tree.branch.origin = .resultParser request.locations := hOrigin.symm
      rw [hSame] at hHead
      rcases hHead with ⟨_, _, hHead⟩ | ⟨_, _, hHead⟩ | ⟨_, hHead⟩ <;> cases hHead
  | caseClass => cases hOwner
  | operation => cases hOwner
  | @resultParser other parser hOther hReads =>
      injection hOwner with hOrigin
      injection hOrigin with hLocations
      have hSame := h.history.locations_inj (h.active hParent) (h.active hOther) hLocations
      subst hSame
      exact ⟨parser, rfl, hReads⟩

/-- The parser of a request is registered, or was there before. -/
theorem resultParser (hSetting : task.toSetting.Admissible)
    (h : Sound task parents requests before) (hParent : request ∈ parents)
    {returnType : InterfaceModel}
    (hReturn : before.interface? request.returnTree.key = some returnType)
    {classes : List ClassModel}
    (hClasses : ∀ model ∈ classes, before.graph.contains model.name = true)
    {discriminators : OrderedMap String}
    (hTypes : discriminators.keys =
      (task.schema.possibleTypes request.declared.name).map FieldedType.name)
    {selected : SelectedModel}
    (hYields : (Build.resultParser task request returnType classes discriminators).Yields
      before selected after) :
    Sound task parents requests after ∧
      Onward task.toSetting request before after requests requests ∧
      selected.returnType = returnType ∧ selected.parser.classes = classes ∧
      selected.parser.discriminators = discriminators ∧
      ∃ parser, after.graph.get? selected.parser.name = some (.parser parser) ∧
        Reads task.toSetting after request parser := by
  obtain ⟨name, proposed, named, hName, rfl, rfl⟩ := Build.yields_resultParser hYields
  obtain ⟨hNamed, hOnward, hKey, _, hGraph⟩ := h.requestName request hName
  have hReads : Reads task.toSetting named request
      ⟨classes, discriminators, name, request.path, returnType, request.source⟩ :=
    ⟨hOnward.interfaces _ _ hReturn, rfl, hTypes⟩
  have hReferences : ∀ reference ∈ (Model.parser
      ⟨classes, discriminators, name, request.path, returnType, request.source⟩).references,
      named.graph.contains reference.name = true := by
    intro reference hReference
    rcases List.mem_cons.mp hReference with rfl | hReference
    · exact hNamed.contains_interface (hOnward.interfaces _ _ hReturn)
    · obtain ⟨model, hModel, rfl⟩ := List.mem_map.mp hReference
      rw [hGraph]
      exact hClasses model hModel
  obtain ⟨hSound, hOnward', known, hKnown, hOwns⟩ :=
    hNamed.register hSetting request (.resultParser hParent hReads) hKey hReferences
  obtain ⟨parser, rfl, hReads'⟩ := hNamed.parser_of_owns hParent hOwns
  exact ⟨hSound, hOnward.trans hOnward', rfl, rfl, rfl, parser, hKnown,
    hReads'.mono hOnward'.toKeeps⟩

end Sound

namespace Build

/-- How the models of a request come about: its return tree gets an interface, and then all cases
get one class or each case gets its own. -/
inductive Models (task : Task) (request : Request) (cases : List Collected) (before : Session)
    (selected : SelectedModel) (after : Session) : Prop
  | lone {returnType : InterfaceModel} {first : Collected} {rest : List Collected}
      {type proposed : String} {model : ClassModel} {made classed : Session} :
    (synthesize task request.path request.returnTree).Yields before returnType made →
    cases = first :: rest → rest.all first.sameFields = true →
    (caseClass task request returnType first (cases.map Collected.type) type proposed).Yields made
      model classed →
    (resultParser task request returnType [model]
      (.ofList ((cases.map Collected.type).map fun type => (type.name, model.name)))).Yields
        classed selected after →
    Models task request cases before selected after
  | each {returnType : InterfaceModel} {entries : List (String × ClassModel)}
      {made classed : Session} :
    (synthesize task request.path request.returnTree).Yields before returnType made →
    (caseClasses task request returnType cases).Yields made entries classed →
    (resultParser task request returnType (entries.map Prod.snd)
      (.ofList (entries.map fun entry => (entry.1, entry.2.name)))).Yields classed selected after →
    Models task request cases before selected after

variable {cases : List Collected} {selected : SelectedModel}

/-- Cases are left as they are, or all that is left is a first case which the others repeat. -/
theorem collapse_cases (collapse : Bool) (cases : List Collected) :
    (if collapse then collapseCases cases else cases) = cases ∨
      ∃ first rest, cases = first :: rest ∧ rest.all first.sameFields = true ∧
        (if collapse then collapseCases cases else cases) = [first] := by
  cases collapse with
  | false => exact .inl rfl
  | true =>
      cases cases with
      | nil => exact .inl rfl
      | cons first rest =>
          simp only [if_true, collapseCases]
          by_cases hSame : rest.all first.sameFields = true
          · exact .inr ⟨first, rest, rfl, hSame, if_pos hSame⟩
          · exact .inl (if_neg hSame)

/-- The models of a selection set on an object type. -/
theorem models_of_modelObject (h : (modelObject task request cases).Yields before selected after) :
    Models task request cases before selected after := by
  unfold modelObject at h
  split at h
  · rw [yields_bind] at h
    obtain ⟨returnType, made, hReturn, h⟩ := h
    dsimp only at h
    rw [yields_bind] at h
    obtain ⟨model, classed, hModel, h⟩ := h
    exact .lone hReturn rfl rfl hModel h
  · exact absurd h (yields_throw _ _)

/-- The models of a selection set on an interface or union. -/
theorem models_of_modelAbstract
    (h : (modelAbstract task request cases).Yields before selected after) :
    Models task request cases before selected after := by
  unfold modelAbstract at h
  rw [yields_bind] at h
  obtain ⟨returnType, made, hReturn, h⟩ := h
  have hLeft := collapse_cases task.config.collapseCases cases
  dsimp only at h
  split at h
  · rename_i case hLone
    rw [yields_bind] at h
    obtain ⟨model, classed, hModel, h⟩ := h
    rcases hLeft with hAll | ⟨kept, rest, hSplit, hSame, hKept⟩
    · exact .lone hReturn (hAll.symm.trans hLone) rfl hModel h
    · rw [hKept] at hLone
      cases hLone
      exact .lone hReturn hSplit hSame hModel h
  · rename_i hMany
    have hAll : (if task.config.collapseCases then collapseCases cases else cases) = cases := by
      rcases hLeft with hAll | ⟨kept, _, _, _, hKept⟩
      · exact hAll
      · exact absurd hKept (hMany kept)
    rw [hAll, yields_bind] at h
    obtain ⟨entries, classed, hEntries, h⟩ := h
    exact .each hReturn hEntries h

theorem yields_model (h : (model task request).Yields before selected after) :
    ∃ cases, task.typeCases request.declared request.selections request.path = .ok cases ∧
      Models task request cases before selected after := by
  unfold model at h
  rw [yields_bind] at h
  obtain ⟨cases, start, hCases, h⟩ := h
  unfold requestCases at hCases
  rw [yields_ofExcept] at hCases
  obtain ⟨hCases, rfl⟩ := hCases
  refine ⟨cases, hCases, ?_⟩
  split at h
  · exact models_of_modelObject h
  · exact models_of_modelAbstract h
  · exact models_of_modelAbstract h
  · exact absurd h (yields_throw _ _)

/-- Taking up a request makes its models, and that of its operation if it has one. -/
theorem yields_process (h : (process task request).Yields before () after) :
    ∃ selected middle, (model task request).Yields before selected middle ∧
      ((request.operation = none ∧ after = middle) ∨
        ∃ details name proposed named, request.operation = some details ∧
          (requestName (.leaf (.operation details.location)) proposed).Yields middle name named ∧
          after = named.register (.operation ⟨details.kind, name, selected.parser,
            selected.returnType, details.rootType, details.vars⟩)) := by
  unfold process at h
  rw [yields_bind] at h
  obtain ⟨selected, middle, hModel, h⟩ := h
  refine ⟨selected, middle, hModel, ?_⟩
  split at h
  · rename_i hNone
    rw [yields_pure] at h
    exact .inl ⟨hNone, h.2⟩
  · rename_i details hDetails
    rw [yields_bind] at h
    obtain ⟨name, named, hName, h⟩ := h
    rw [yields_register] at h
    exact .inr ⟨details, name, _, named, hDetails, hName, h⟩

end Build

/-- How the type cases of a request are read: each into a class of its own, or all into one class
when they select the same fields. -/
inductive Classified (setting : Setting) (request : Request) (cases : List Collected)
    (parser : ParserModel) : Prop
  | each {entries : List (String × ClassModel)} :
    List.Forall₂ (fun case entry => entry.1 = case.type.name ∧
      Offers setting request case [case.type] entry.2) cases entries →
    parser.classes = entries.map Prod.snd →
    parser.discriminators = ⟨entries.map fun entry => (entry.1, entry.2.name)⟩ →
    Classified setting request cases parser
  | lone {first : Collected} {rest : List Collected} {model : ClassModel} :
    cases = first :: rest → rest.all first.sameFields = true →
    Offers setting request first (cases.map Collected.type) model →
    parser.classes = [model] →
    parser.discriminators = ⟨cases.map fun case => (case.type.name, model.name)⟩ →
    Classified setting request cases parser

namespace Sound

variable {cases : List Collected} {selected : SelectedModel}

/-- What modelling a request comes to in the session. -/
structure ModelledIn (task : Task) (parents requests : List Request) (before : Session)
    (request : Request) (cases : List Collected) (selected : SelectedModel) (others : List Request)
    (after : Session) : Prop where
  sound : Sound task parents others after
  onward : Onward task.toSetting request before after requests others
  returned : after.interface? request.returnTree.key = some selected.returnType
  classified : Classified task.toSetting request cases selected.parser
  registered : ∃ parser, after.graph.get? selected.parser.name = some (.parser parser) ∧
    Reads task.toSetting after request parser

theorem ModelledIn.prepend {start : Session} {earlier others : List Request}
    (h : ModelledIn task parents requests before request cases selected others after)
    (hOnward : Onward task.toSetting request start before earlier requests) :
    ModelledIn task parents earlier start request cases selected others after :=
  ⟨h.sound, hOnward.trans h.onward, h.returned, h.classified, h.registered⟩

theorem isCase_of_casesIn (hCases : request.CasesIn task.toSetting cases) :
    ∀ case ∈ cases, IsCase task.toSetting request case := by
  intro case hCase
  obtain ⟨object, hObject, hCollected⟩ := Outcome.exists_left hCases hCase
  exact ⟨object, hObject, hCollected⟩

/-- The cases run through the possible types. -/
theorem map_type (hCases : request.CasesIn task.toSetting cases) :
    cases.map Collected.type =
      (task.schema.possibleTypes request.declared.name).map .object := by
  unfold Request.CasesIn at hCases
  generalize task.schema.possibleTypes request.declared.name = objects at hCases ⊢
  induction hCases with
  | nil => rfl
  | cons hFirst _ ih => rw [List.map_cons, List.map_cons, ih, Setting.collectIn_type hFirst]

theorem map_type_name (hCases : request.CasesIn task.toSetting cases) :
    cases.map (fun case => case.type.name) =
      (task.schema.possibleTypes request.declared.name).map FieldedType.name := by
  have hNames := congrArg (List.map SchemaType.name) (map_type hCases)
  rwa [List.map_map, List.map_map] at hNames

/-- Entries for the cases, one after the other, are a map as they stand. -/
theorem ofList_entries (hSetting : task.toSetting.Admissible) {α : Type} {items : List α}
    {entry : α → String × String}
    (hTypes : items.map (fun item => (entry item).1) =
      (task.schema.possibleTypes request.declared.name).map FieldedType.name) :
    OrderedMap.ofList (items.map entry) = ⟨items.map entry⟩ := by
  refine OrderedMap.ofList_eq _ ?_
  rw [List.map_map]
  change (items.map fun item => (entry item).1).Nodup
  rw [hTypes]
  exact hSetting.schema.wellFormed.nodup_possible _

/-- All cases are read into the class of the first. -/
theorem loneCase (hSetting : task.toSetting.Admissible)
    (h : Sound task parents requests before) (hParent : request ∈ parents)
    {returnType : InterfaceModel}
    (hFound : before.interface? request.returnTree.key = some returnType)
    (hCases : request.CasesIn task.toSetting cases)
    {first : Collected} {rest : List Collected} (hSplit : cases = first :: rest)
    (hSame : rest.all first.sameFields = true) {type proposed : String} {model : ClassModel}
    {middle : Session}
    (hModel : (Build.caseClass task request returnType first (cases.map Collected.type) type
      proposed).Yields before model middle)
    (hYields : (Build.resultParser task request returnType [model]
      (.ofList ((cases.map Collected.type).map fun type => (type.name, model.name)))).Yields
        middle selected after) :
    ∃ others, ModelledIn task parents requests before request cases selected others after := by
  have hCase := isCase_of_casesIn hCases first (hSplit ▸ List.mem_cons_self)
  obtain ⟨others, hSound, hOnward, hContains, hOffers⟩ :=
    h.caseClass hSetting hParent hFound hCase hModel
  have hEntries : (cases.map Collected.type).map (fun type => (type.name, model.name)) =
      cases.map fun case => (case.type.name, model.name) := by
    rw [List.map_map]
    rfl
  have hNames : cases.map (fun case => ((case.type.name, model.name) : String × String).1) =
      (task.schema.possibleTypes request.declared.name).map FieldedType.name :=
    map_type_name hCases
  rw [hEntries, ofList_entries hSetting hNames] at hYields
  have hTypes : OrderedMap.keys ⟨cases.map fun case => (case.type.name, model.name)⟩ =
      (task.schema.possibleTypes request.declared.name).map FieldedType.name := by
    rw [OrderedMap.keys, List.map_map]
    exact hNames
  obtain ⟨hDone, hOnward', hType, hClasses, hRead, hParser⟩ := hSound.resultParser hSetting
    hParent (hOnward.interfaces _ _ hFound) (by simpa using hContains) hTypes hYields
  refine ⟨others, hDone, hOnward.trans hOnward', ?_, ?_, hParser⟩
  · rw [hType]
    exact hOnward'.interfaces _ _ (hOnward.interfaces _ _ hFound)
  · exact .lone hSplit hSame hOffers hClasses hRead

/-- Each case is read into a class of its own. -/
theorem eachCase (hSetting : task.toSetting.Admissible)
    (h : Sound task parents requests before) (hParent : request ∈ parents)
    {returnType : InterfaceModel}
    (hFound : before.interface? request.returnTree.key = some returnType)
    (hCases : request.CasesIn task.toSetting cases)
    {entries : List (String × ClassModel)} {middle : Session}
    (hEntries : (Build.caseClasses task request returnType cases).Yields before entries middle)
    (hYields : (Build.resultParser task request returnType (entries.map Prod.snd)
      (.ofList (entries.map fun entry => (entry.1, entry.2.name)))).Yields middle selected after) :
    ∃ others, ModelledIn task parents requests before request cases selected others after := by
  obtain ⟨others, hSound, hOnward, hContains, hEach⟩ :=
    h.caseClasses hSetting hParent hFound (isCase_of_casesIn hCases) hEntries
  have hNames : entries.map (fun entry => ((entry.1, entry.2.name) : String × String).1) =
      (task.schema.possibleTypes request.declared.name).map FieldedType.name := by
    rw [← map_type_name hCases]
    clear hCases hEntries hContains hYields
    induction hEach with
    | nil => rfl
    | cons hFirst _ ih => rw [List.map_cons, List.map_cons, ih, hFirst.1]
  rw [ofList_entries hSetting hNames] at hYields
  have hTypes : OrderedMap.keys ⟨entries.map fun entry => (entry.1, entry.2.name)⟩ =
      (task.schema.possibleTypes request.declared.name).map FieldedType.name := by
    rw [OrderedMap.keys, List.map_map]
    exact hNames
  have hRegistered : ∀ model ∈ entries.map Prod.snd,
      middle.graph.contains model.name = true := by
    intro model hModel
    obtain ⟨entry, hEntry, rfl⟩ := List.mem_map.mp hModel
    exact hContains entry hEntry
  obtain ⟨hDone, hOnward', hType, hClasses, hRead, hParser⟩ := hSound.resultParser hSetting
    hParent (hOnward.interfaces _ _ hFound) hRegistered hTypes hYields
  refine ⟨others, hDone, hOnward.trans hOnward', ?_, ?_, hParser⟩
  · rw [hType]
    exact hOnward'.interfaces _ _ (hOnward.interfaces _ _ hFound)
  · exact .each hEach hClasses hRead

/-- The models of a request. -/
theorem model (hSetting : task.toSetting.Admissible) (h : Sound task parents requests before)
    (hParent : request ∈ parents) (hGrowing : Growing task request before request.returnTree)
    (hYields : (Build.model task request).Yields before selected after) :
    ∃ cases others, request.CasesIn task.toSetting cases ∧
      ModelledIn task parents requests before request cases selected others after := by
  obtain ⟨cases, hCases, hModels⟩ := Build.yields_model hYields
  obtain ⟨_, hEach⟩ := Setting.typeCases_eq_ok hSetting hCases
  refine ⟨cases, ?_⟩
  cases hModels with
  | lone hReturn hSplit hSame hModel hParser =>
      obtain ⟨others, hSound, hOnward, hFound, _⟩ :=
        synthesizes hSetting hParent request.returnTree h hGrowing hReturn
      obtain ⟨others', hModelled⟩ :=
        hSound.loneCase hSetting hParent hFound hEach hSplit hSame hModel hParser
      exact ⟨others', hEach, hModelled.prepend hOnward⟩
  | each hReturn hEntries hParser =>
      obtain ⟨others, hSound, hOnward, hFound, _⟩ :=
        synthesizes hSetting hParent request.returnTree h hGrowing hReturn
      obtain ⟨others', hModelled⟩ :=
        hSound.eachCase hSetting hParent hFound hEach hEntries hParser
      exact ⟨others', hEach, hModelled.prepend hOnward⟩

/-- Taking up a request. -/
theorem process (hSetting : task.toSetting.Admissible) (h : Sound task parents requests before)
    (hParent : request ∈ parents) (hGrowing : Growing task request before request.returnTree)
    (hYields : (Build.process task request).Yields before () after) :
    ∃ others, Sound task parents others after ∧
      Onward task.toSetting request before after requests others ∧
      (∃ model, after.interface? request.returnTree.key = some model) ∧
      ∃ name parser, after.graph.get? name = some (.parser parser) ∧
        Reads task.toSetting after request parser := by
  obtain ⟨selected, middle, hModel, hRest⟩ := Build.yields_process hYields
  obtain ⟨cases, others, _, hModelled⟩ := h.model hSetting hParent hGrowing hModel
  obtain ⟨parser, hParser, hReads⟩ := hModelled.registered
  rcases hRest with ⟨_, rfl⟩ | ⟨details, name, proposed, named, hDetails, hName, rfl⟩
  · exact ⟨others, hModelled.sound, hModelled.onward, ⟨_, hModelled.returned⟩, _, parser, hParser,
      hReads⟩
  · -- The operation refers to the parser and to the interface of the request.
    obtain ⟨hNamed, hOnward, hKey, _, _⟩ := hModelled.sound.requestName request hName
    have hReturned := hOnward.interfaces _ _ hModelled.returned
    have hReferences : ∀ reference ∈ (Model.operation ⟨details.kind, name, selected.parser,
        selected.returnType, details.rootType, details.vars⟩).references,
        named.graph.contains reference.name = true := by
      intro reference hReference
      rcases List.mem_cons.mp hReference with rfl | hReference
      · exact hNamed.contains_interface hReturned
      · rw [List.mem_singleton.mp hReference]
        exact (Graph.contains_iff _ _).mpr ⟨_, hOnward.graph _ _ hParser⟩
    have hOwns : Owns task.toSetting parents named (.leaf (.operation details.location))
        (.operation ⟨details.kind, name, selected.parser, selected.returnType, details.rootType,
          details.vars⟩) := .operation hParent hDetails
    obtain ⟨hSound, hOnward', _⟩ := hNamed.register hSetting request hOwns hKey hReferences
    refine ⟨others, hSound, (hModelled.onward.trans hOnward).trans hOnward',
      ⟨_, hOnward'.interfaces _ _ hReturned⟩, _, parser,
      hOnward'.graph _ _ (hOnward.graph _ _ hParser), ?_⟩
    exact hReads.mono (hOnward.toKeeps.trans hOnward'.toKeeps)

end Sound

end ResponseModels
