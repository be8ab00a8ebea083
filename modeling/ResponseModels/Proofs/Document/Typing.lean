import ResponseModels.Proofs.Document.Nodes
import ResponseModels.Proofs.Schema.Covariance
import ResponseModels.Proofs.Selection.Growth

/-! Well-typed documents, in which every field exists on the type of the selection set that it is
written in. In a covariant schema a selection stays well typed on narrower types. -/
namespace ResponseModels

open GraphQL

namespace Schema

mutual

/-- Does every field in the selection exist where it is written? That is on `scope`, beneath a field
on the type of that field, and in a fragment on its condition. -/
def allows (schema : Schema) (scope : SchemaType) : Selection → Bool
  | .field _ _ name selections =>
    match scope.selectable? name with
    | none => false
    | some field =>
      match schema.type? field.annotation.innermost.name with
      | none => selections.isEmpty
      | some type => allowsAll schema type selections
  | .spread _ _ => true
  | .inline _ none selections => allowsAll schema scope selections
  | .inline _ (some name) selections =>
    match schema.type? name with
    | none => false
    | some condition => allowsAll schema condition selections

/-- Does every field in the selections exist where it is written? -/
def allowsAll (schema : Schema) (scope : SchemaType) : List Selection → Bool
  | [] => true
  | selection :: rest => allows schema scope selection && allowsAll schema scope rest

end

variable {schema : Schema} {scope type : SchemaType}

theorem allowsAll_iff {selections : List Selection} :
    schema.allowsAll scope selections = true ↔
      ∀ selection ∈ selections, schema.allows scope selection = true := by
  induction selections with
  | nil => simp [allowsAll]
  | cons first rest ih => simp [allowsAll, ih]

theorem allows_field {node : FieldNode} (h : schema.allows scope node.selection = true) :
    ∃ field, scope.selectable? node.name = some field ∧
      ∀ type, schema.type? field.annotation.innermost.name = some type →
        schema.allowsAll type node.selections = true := by
  unfold FieldNode.selection at h
  rw [allows] at h
  split at h
  · cases h
  · rename_i field hField
    refine ⟨field, hField, fun type hType => ?_⟩
    rw [hType] at h
    exact h

theorem allows_inlineOn {position : Position} {name : String} {selections : List Selection}
    (h : schema.allows scope (.inline position (some name) selections) = true) :
    ∃ condition, schema.type? name = some condition ∧
      schema.allowsAll condition selections = true := by
  rw [allows] at h
  split at h
  · cases h
  · rename_i condition hCondition
    exact ⟨condition, hCondition, h⟩

mutual

/-- What is allowed on a condition is allowed on every type that the condition applies to. -/
theorem Covariant.allows (hCovariant : schema.Covariant) (hSchema : schema.Built)
    {scope type : SchemaType} (hScope : schema.type? scope.name = some scope)
    (hType : schema.type? type.name = some type) (hApplies : schema.applies scope type = true) :
    ∀ selection : Selection, schema.allows scope selection = true →
      schema.allows type selection = true
  | .field position label name selections, h => by
    rw [Schema.allows] at h ⊢
    split at h
    · cases h
    · rename_i field hField
      obtain ⟨own, hOwn, hNarrows⟩ :=
        hCovariant.selectable? hSchema hScope hType hApplies hField
      rw [hOwn]
      dsimp only
      rcases hNarrows with hSame | ⟨narrow, hNarrow, wide, hWide, hInner⟩
      · rw [hSame]
        exact h
      · rw [Option.mem_def] at hNarrow hWide
        rw [hNarrow]
        rw [hWide] at h
        have hForm := hSchema.wellFormed
        exact Covariant.allowsAll hCovariant hSchema (by rwa [hForm.name_of_type? hWide])
          (by rwa [hForm.name_of_type? hNarrow]) hInner selections h
  | .spread _ _, _ => rfl
  | .inline _ none selections, h => by
    rw [Schema.allows] at h ⊢
    exact Covariant.allowsAll hCovariant hSchema hScope hType hApplies selections h
  | .inline _ (some _) _, h => h

theorem Covariant.allowsAll (hCovariant : schema.Covariant) (hSchema : schema.Built)
    {scope type : SchemaType} (hScope : schema.type? scope.name = some scope)
    (hType : schema.type? type.name = some type) (hApplies : schema.applies scope type = true) :
    ∀ selections : List Selection, schema.allowsAll scope selections = true →
      schema.allowsAll type selections = true
  | [], _ => rfl
  | selection :: rest, h => by
    rw [Schema.allowsAll, Bool.and_eq_true] at h ⊢
    exact ⟨Covariant.allows hCovariant hSchema hScope hType hApplies selection h.1,
      Covariant.allowsAll hCovariant hSchema hScope hType hApplies rest h.2⟩

end

mutual

/-- In an allowed selection each selection is allowed somewhere. -/
theorem exists_allows {node : Selection} {scope : SchemaType} :
    ∀ selection : Selection, schema.allows scope selection = true → node ∈ selection.nodes →
      ∃ other, schema.allows other node = true
  | .field position label name selections, h, hNode => by
    rcases List.mem_cons.mp hNode with rfl | hInner
    · exact ⟨scope, h⟩
    · rw [allows] at h
      split at h
      · cases h
      · split at h
        · rw [List.isEmpty_iff.mp h] at hInner
          cases hInner
        · exact exists_allows_of_all selections h hInner
  | .spread _ _, h, hNode => ⟨scope, List.mem_singleton.mp hNode ▸ h⟩
  | .inline _ none selections, h, hNode => by
    rcases List.mem_cons.mp hNode with rfl | hInner
    · exact ⟨scope, h⟩
    · rw [allows] at h
      exact exists_allows_of_all selections h hInner
  | .inline _ (some _) selections, h, hNode => by
    rcases List.mem_cons.mp hNode with rfl | hInner
    · exact ⟨scope, h⟩
    · obtain ⟨_, _, hAll⟩ := allows_inlineOn h
      exact exists_allows_of_all selections hAll hInner

theorem exists_allows_of_all {node : Selection} {scope : SchemaType} :
    ∀ selections : List Selection, schema.allowsAll scope selections = true →
      node ∈ Selection.nodesOf selections → ∃ other, schema.allows other node = true
  | [], _, hNode => by cases hNode
  | selection :: rest, h, hNode => by
    rw [allowsAll, Bool.and_eq_true] at h
    rcases List.mem_append.mp hNode with hFirst | hRest
    · exact exists_allows selection h.1 hFirst
    · exact exists_allows_of_all rest h.2 hRest

end

end Schema

namespace Setting

variable {setting : Setting}

/-- Every field of the document exists where it is written, operations being written for their root
types. -/
structure WellTyped (setting : Setting) : Prop where
  operations : ∀ operation ∈ setting.document.operations,
    ∃ root ∈ setting.schema.root? operation.kind,
      setting.schema.allowsAll (.object root) operation.selections = true
  fragments : ∀ fragment ∈ setting.document.fragments.values,
    ∃ condition ∈ setting.schema.type? fragment.condition,
      setting.schema.allowsAll condition fragment.selections = true

instance (setting : Setting) : Decidable setting.WellTyped :=
  decidable_of_iff
    ((∀ operation ∈ setting.document.operations,
        ∃ root ∈ setting.schema.root? operation.kind,
          setting.schema.allowsAll (.object root) operation.selections = true) ∧
      ∀ fragment ∈ setting.document.fragments.values,
        ∃ condition ∈ setting.schema.type? fragment.condition,
          setting.schema.allowsAll condition fragment.selections = true)
    ⟨fun h => ⟨h.1, h.2⟩, fun h => ⟨h.operations, h.fragments⟩⟩

theorem WellTyped.allows_node (h : setting.WellTyped) {node : Selection}
    (hNode : node ∈ setting.document.nodes) :
    ∃ scope, setting.schema.allows scope node = true := by
  rcases List.mem_append.mp hNode with hNode | hNode
  · obtain ⟨selection, hSelection, hInner⟩ := Selection.mem_nodesOf.mp hNode
    obtain ⟨operation, hOperation, hMem⟩ := List.mem_flatMap.mp hSelection
    obtain ⟨root, _, hAll⟩ := h.operations operation hOperation
    exact Schema.exists_allows selection (Schema.allowsAll_iff.mp hAll selection hMem) hInner
  · obtain ⟨selection, hSelection, hInner⟩ := Selection.mem_nodesOf.mp hNode
    obtain ⟨fragment, hFragment, hMem⟩ := List.mem_flatMap.mp hSelection
    obtain ⟨condition, _, hAll⟩ := h.fragments fragment hFragment
    exact Schema.exists_allows selection (Schema.allowsAll_iff.mp hAll selection hMem) hInner

end Setting

end ResponseModels
