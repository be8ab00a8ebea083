import ResponseModels.Proofs.Run.Synthesis

/-! What the interface of a tree is put together from. It is told by the fields of the tree, by the
interfaces and the fields of the children and by the names of what was asked for beneath composite
fields; the path at which it was made has no part in it. So it can be told again later, and making
it once more in a session that has all this already changes nothing. -/
namespace ResponseModels

open GraphQL

variable {task : Task} {before after session : Session} {path : ModelPath} {tree : FragmentTree}
  {fields left : List MergedField} {bases : List (InterfaceModel × List MergedField)}
  {merged : MergedField} {field : FieldModel} {declared : List FieldModel}
  {model : InterfaceModel} {type : SchemaType}

namespace Session

/-- What was named, kept, asked for or registered stays. -/
structure Extends (before after : Session) : Prop extends Keeps before after where
  requested : ∀ origin name, before.requested.lookup origin = some name →
    after.requested.lookup origin = some name
  returnTrees : before.returnTrees ⊆ after.returnTrees
  graph : ∀ name, before.graph.contains name = true → after.graph.contains name = true

namespace Extends

theorem refl (session : Session) : session.Extends session :=
  ⟨.refl _, fun _ _ h => h, List.Subset.refl _, fun _ h => h⟩

theorem trans {first second third : Session} (h : first.Extends second)
    (h' : second.Extends third) : first.Extends third :=
  ⟨h.toKeeps.trans h'.toKeeps,
    fun origin name hName => h'.requested origin name (h.requested origin name hName),
    List.Subset.trans h.returnTrees h'.returnTrees,
    fun name hName => h'.graph name (h.graph name hName)⟩

theorem named (session : Session) (key : OriginKey) (proposed : String) :
    session.Extends { session with names := (session.names.request key proposed).2 } :=
  ⟨⟨fun _ _ h => Names.nameOf?_request_of_some h, fun _ _ h => h⟩, fun _ _ h => h,
    List.Subset.refl _, fun _ h => h⟩

theorem registered (session : Session) (model : Model) :
    session.Extends (session.register model) :=
  ⟨⟨fun _ _ h => h, fun _ _ h => h⟩, fun _ _ h => h, List.Subset.refl _,
    fun _ h => Graph.contains_registerQueue h⟩

/-- A request is noted for nodes that were not asked for before. -/
theorem enqueue {request : Request}
    (hNew : session.requested.lookup (.selection request.locations) = none) :
    session.Extends (session.enqueue request) := by
  refine ⟨⟨fun _ _ h => h, fun _ _ h => h⟩, fun origin name h => ?_,
    fun _ h => List.mem_cons_of_mem _ h, fun _ h => h⟩
  change List.lookup origin ((.selection request.locations, _) :: session.requested) = some name
  rw [List.lookup_cons]
  split
  · rename_i hSame
    rw [eq_of_beq hSame, hNew] at h
    cases h
  · exact h

/-- An interface is kept for a key that had none. -/
theorem addInterface {key : OriginKey} (hNew : session.interface? key = none)
    (model : InterfaceModel) : session.Extends (session.addInterface key model) :=
  ⟨⟨fun _ _ h => h, fun _ _ h => interface?_addInterface_of_some hNew h⟩, fun _ _ h => h,
    List.Subset.refl _, fun _ h => Graph.contains_registerQueue h⟩

end Extends

end Session

/-- The declaration of a merged field, once what is beneath a composite field was asked for. -/
inductive Declaration (task : Task) (session : Session) (merged : MergedField) :
    FieldModel → Prop
  | composite {type : SchemaType} {name : String} :
    Build.innermostType? task merged = some type → type.isComposite = true →
    session.requested.lookup merged.origin = some name →
    Declaration task session merged
      ⟨merged.field.name, .composite name, merged.responseKey, merged.field.annotation⟩
  | leaf {type : SchemaType} :
    Build.innermostType? task merged = some type → type.isComposite = false →
    merged.nodes.any (!·.selections.isEmpty) = false →
    Declaration task session merged
      ⟨merged.field.name, .leaf type.kind merged.field.annotation.innermost.name,
        merged.responseKey, merged.field.annotation⟩

namespace Declaration

/-- Nothing but the names of what was asked for has a part in a declaration. -/
theorem mono (hRequested : ∀ origin name, before.requested.lookup origin = some name →
      after.requested.lookup origin = some name)
    (h : Declaration task before merged field) : Declaration task after merged field := by
  cases h with
  | composite hType hComposite hName =>
      exact .composite hType hComposite (hRequested _ _ hName)
  | leaf hType hLeaf hNothing => exact .leaf hType hLeaf hNothing

theorem responseName (h : Declaration task session merged field) :
    field.responseName = merged.responseKey := by
  cases h <;> rfl

/-- The path of a merged field has no part in its declaration. -/
theorem movedTo (h : Declaration task session merged field) (path : ModelPath) :
    Declaration task session (merged.movedTo path) field := by
  cases h with
  | composite hType hComposite hName => exact .composite hType hComposite hName
  | leaf hType hLeaf hNothing => exact .leaf hType hLeaf hNothing

/-- A field is declared once more as it was, and nothing is asked for. -/
theorem yields (h : Declaration task session merged field) (overridden : List MergedField) :
    (Build.fieldModel task merged overridden).Yields session field session := by
  unfold Build.fieldModel
  cases h with
  | composite hType hComposite hName =>
      simp only [hType, hComposite, if_true, Build.yields_bind, Build.yields_map]
      refine ⟨_, session, ⟨_, ?_, rfl⟩, (Build.yields_pure _ _).mpr ⟨rfl, rfl⟩⟩
      unfold Build.requestField
      rw [Build.yields_get_bind, hName]
      exact (Build.yields_pure _ _).mpr ⟨rfl, rfl⟩
  | leaf hType hLeaf hNothing =>
      simp only [hType, hLeaf, hNothing, pure_bind]
      exact (Build.yields_pure _ _).mpr ⟨rfl, rfl⟩

end Declaration

namespace Build

/-- Does an interface with the given bases declare the field itself? It does if no base exposes the
field, or if it is one to be declared once more. -/
def isDeclared (task : Task) (bases : List (InterfaceModel × List MergedField))
    (merged : MergedField) : Bool :=
  (bases.all fun base => !base.1.fieldNames.contains merged.responseKey) ||
    isRedeclared task merged (overriddenIn bases merged.responseKey)

/-- A field that is not declared is left to a base that exposes it. -/
theorem exposed_of_not_declared (h : isDeclared task bases merged = false) :
    ∃ base ∈ bases, merged.responseKey ∈ base.1.fieldNames := by
  have hAll := (Bool.or_eq_false_iff.mp h).1
  simpa using hAll

/-- A composite field that a base exposes is declared once more if no subtree has it at the very
same locations. -/
theorem isDeclared_composite_iff (hType : innermostType? task merged = some type)
    (hComposite : type.isComposite = true)
    (hExposed : ∃ base ∈ bases, merged.responseKey ∈ base.1.fieldNames) :
    isDeclared task bases merged = true ↔
      ∀ other ∈ overriddenIn bases merged.responseKey, other.locations ≠ merged.locations := by
  have hAll : (bases.all fun base => !base.1.fieldNames.contains merged.responseKey) = false := by
    simpa using hExposed
  rw [isDeclared, hAll, Bool.false_or, isRedeclared, hType, Option.map_some, hComposite,
    Option.getD_some, Bool.and_true]
  simp

/-- A leaf field is declared only if no base exposes it. -/
theorem isDeclared_leaf (hType : innermostType? task merged = some type)
    (hLeaf : type.isComposite = false) (h : isDeclared task bases merged = true) :
    ∀ base ∈ bases, merged.responseKey ∉ base.1.fieldNames := by
  rw [isDeclared, isRedeclared, hType, Option.map_some, hLeaf, Option.getD_some, Bool.and_false,
    Bool.or_false] at h
  simpa using h

/-- What becomes of the first of the fields: it is declared, or left to a base. -/
theorem exists_declareFields_cons (task : Task) (bases : List (InterfaceModel × List MergedField))
    (merged : MergedField) (left : List MergedField) :
    ∃ overridden, declareFields task bases (merged :: left) =
      if isDeclared task bases merged then do
        let field ← fieldModel task merged overridden
        return field :: (← declareFields task bases left)
      else declareFields task bases left := by
  rw [declareFields]
  split
  · rename_i hNone
    refine ⟨[], ?_⟩
    rw [isDeclared, hNone, Bool.true_or, if_pos rfl]
  · rename_i hSome
    refine ⟨overriddenIn bases merged.responseKey, ?_⟩
    rw [isDeclared, Bool.eq_false_iff.mpr hSome, Bool.false_or]
    rfl

/-- Fields that have their declarations are declared once more just so. -/
theorem declareFields_of_declared
    (h : List.Forall₂ (Declaration task session) (left.filter (isDeclared task bases)) declared) :
    (declareFields task bases left).Yields session declared session := by
  induction left generalizing declared with
  | nil =>
      cases h
      exact (yields_pure _ _).mpr ⟨rfl, rfl⟩
  | cons merged rest ih =>
      obtain ⟨overridden, hEq⟩ := exists_declareFields_cons task bases merged rest
      rw [hEq]
      cases hMerged : isDeclared task bases merged with
      | false =>
          rw [List.filter_cons_of_neg (by simp [hMerged])] at h
          exact ih h
      | true =>
          rw [List.filter_cons_of_pos hMerged] at h
          cases h with
          | cons hField hRest =>
              rw [if_pos rfl, yields_bind]
              refine ⟨_, session, hField.yields overridden, ?_⟩
              rw [yields_bind]
              exact ⟨_, session, ih hRest, (yields_pure _ _).mpr ⟨rfl, rfl⟩⟩

/-- The bases with the fields of their trees at another path. -/
def movedBases (path : ModelPath) (bases : List (InterfaceModel × List MergedField)) :
    List (InterfaceModel × List MergedField) :=
  bases.map fun base => (base.1, base.2.map (.movedTo path))

theorem overriddenIn_movedBases (path : ModelPath)
    (bases : List (InterfaceModel × List MergedField)) (key : String) :
    overriddenIn (movedBases path bases) key =
      (overriddenIn bases key).map (.movedTo path) := by
  rw [overriddenIn, movedBases, List.filterMap_map, overriddenIn, List.map_filterMap]
  congr 1
  funext base
  rw [Function.comp_apply, List.find?_map]
  rfl

/-- Which fields are declared does not depend on the path either. -/
theorem isDeclared_movedTo (path : ModelPath) (bases : List (InterfaceModel × List MergedField))
    (merged : MergedField) :
    isDeclared task (movedBases path bases) (merged.movedTo path) =
      isDeclared task bases merged := by
  have hKey : (merged.movedTo path).responseKey = merged.responseKey := rfl
  rw [isDeclared, isDeclared, hKey, overriddenIn_movedBases, isRedeclared, isRedeclared,
    movedBases, List.all_map, List.any_map]
  rfl

end Build

/-- The interface of a tree, as it is put together from the interfaces of the children, with the
fields of the tree and of the children at some path. -/
structure Assembled (task : Task) (session : Session) (path : ModelPath) (tree : FragmentTree)
    (fields : List MergedField) (bases : List (InterfaceModel × List MergedField))
    (model : InterfaceModel) : Prop where
  merges : task.treeFields path tree = .ok fields
  children : List.Forall₂ (fun child base => session.interface? child.key = some base.1 ∧
    task.treeFields path child = .ok base.2) tree.children bases
  declares : List.Forall₂ (Declaration task session)
    (fields.filter (Build.isDeclared task bases)) model.fields
  type : model.type = tree.condition.name
  bases : model.bases = Build.distinctByName (bases.map Prod.fst)
  name : session.names.nameOf? tree.key = some model.name

namespace Assembled

theorem mono (hExtends : before.Extends after)
    (h : Assembled task before path tree fields bases model) :
    Assembled task after path tree fields bases model :=
  ⟨h.merges,
    h.children.imp fun _ _ hChild => ⟨hExtends.interfaces _ _ hChild.1, hChild.2⟩,
    h.declares.imp fun _ _ hField => hField.mono hExtends.requested, h.type, h.bases,
    hExtends.names _ _ h.name⟩

/-- The interface is put together in the same way at any path. -/
theorem movedTo (h : Assembled task session path tree fields bases model)
    (elsewhere : ModelPath) :
    Assembled task session elsewhere tree (fields.map (.movedTo elsewhere))
      (Build.movedBases elsewhere bases) model := by
  refine ⟨Setting.treeFields_movedTo h.merges elsewhere, ?_, ?_, h.type, ?_, h.name⟩
  · rw [Build.movedBases, List.forall₂_map_right_iff]
    exact h.children.imp fun _ _ hChild =>
      ⟨hChild.1, Setting.treeFields_movedTo hChild.2 elsewhere⟩
  · have hFilter : (fields.map (.movedTo elsewhere)).filter
        (Build.isDeclared task (Build.movedBases elsewhere bases)) =
          (fields.filter (Build.isDeclared task bases)).map (.movedTo elsewhere) := by
      rw [List.filter_map]
      congr 2
      funext merged
      exact Build.isDeclared_movedTo elsewhere bases merged
    rw [hFilter, List.forall₂_map_left_iff]
    exact h.declares.imp fun _ _ hField => hField.movedTo elsewhere
  · rw [h.bases, Build.movedBases, List.map_map]
    rfl

theorem exists_base (h : Assembled task session path tree fields bases model)
    {base : InterfaceModel} (hBase : base ∈ model.bases) : ∃ entry ∈ bases, entry.1 = base := by
  rw [h.bases] at hBase
  exact List.mem_map.mp ((Build.distinctByName_spec _).1 hBase)

theorem exists_declaration (h : Assembled task session path tree fields bases model)
    (hField : field ∈ model.fields) : ∃ merged ∈ fields,
      Build.isDeclared task bases merged = true ∧ Declaration task session merged field := by
  obtain ⟨merged, hMerged, hDeclaration⟩ := Outcome.exists_left h.declares hField
  obtain ⟨hMem, hDeclared⟩ := List.mem_filter.mp hMerged
  exact ⟨merged, hMem, hDeclared, hDeclaration⟩

theorem exists_field (h : Assembled task session path tree fields bases model)
    (hMerged : merged ∈ fields) (hDeclared : Build.isDeclared task bases merged = true) :
    ∃ field ∈ model.fields, Declaration task session merged field :=
  Outcome.exists_right h.declares (List.mem_filter.mpr ⟨hMerged, hDeclared⟩)

/-- No response key is declared twice. -/
theorem nodup_fields (h : Assembled task session path tree fields bases model) :
    (model.fields.map FieldModel.responseName).Nodup := by
  have hNames : model.fields.map FieldModel.responseName =
      (fields.filter (Build.isDeclared task bases)).map MergedField.responseKey := by
    rw [← List.forall₂_eq_eq_eq, List.forall₂_map_left_iff, List.forall₂_map_right_iff]
    exact h.declares.flip.imp fun _ _ hField => hField.responseName
  rw [hNames]
  exact (Setting.merged_met h.merges).nodup.sublist (List.filter_sublist.map _)

/-- The response keys that are declared are those of the fields to be declared. -/
theorem declares_iff (h : Assembled task session path tree fields bases model)
    (hMerged : merged ∈ fields) :
    (∃ field ∈ model.fields, field.responseName = merged.responseKey) ↔
      Build.isDeclared task bases merged = true := by
  constructor
  · rintro ⟨field, hField, hKey⟩
    obtain ⟨source, hSource, hDeclared, hDeclaration⟩ := h.exists_declaration hField
    have hSame : source = merged := List.inj_on_of_nodup_map
      (Setting.merged_met h.merges).nodup hSource hMerged
      (hDeclaration.responseName.symm.trans hKey)
    rwa [← hSame]
  · intro hDeclared
    obtain ⟨field, hField, hDeclaration⟩ := h.exists_field hMerged hDeclared
    exact ⟨field, hField, hDeclaration.responseName⟩

/-- The interface is put together once more just so, and only kept anew. -/
theorem yields (h : Assembled task session path tree fields bases model)
    (hRegistered : session.graph.contains model.name = true) :
    (Build.assemble task path tree bases).Yields session model
      { session with interfaces := (tree.key, model) :: session.interfaces } := by
  have hModel : InterfaceModel.mk model.fields tree.condition.name
      (Build.distinctByName (bases.map Prod.fst)) model.name = model := by
    rw [← h.type, ← h.bases]
    cases model
    rfl
  have hKept : session.addInterface tree.key model =
      { session with interfaces := (tree.key, model) :: session.interfaces } := by
    have hGraph : session.graph.register (.interface model) = session.graph :=
      Graph.register_of_contains hRegistered
    rw [Session.addInterface, Session.register, hGraph]
  have hName : session.names.request tree.key (task.interfaceName tree.name) =
      (.ok model.name, session.names) := Names.request_of_known h.name _
  unfold Build.assemble
  rw [Build.yields_bind]
  refine ⟨fields, session, (Build.yields_ofExcept _ _).mpr ⟨h.merges, rfl⟩, ?_⟩
  rw [Build.yields_bind]
  refine ⟨model.fields, session, Build.declareFields_of_declared h.declares, ?_⟩
  rw [Build.yields_bind]
  refine ⟨model.name, session, ?_, ?_⟩
  · rw [Build.yields_requestName, hName]
    exact ⟨rfl, rfl⟩
  · dsimp only
    rw [hModel, Build.yields_bind]
    refine ⟨(), _, (Build.yields_modify _ _).mpr rfl, ?_⟩
    exact (Build.yields_pure _ _).mpr ⟨rfl, hKept.symm⟩

end Assembled

end ResponseModels
