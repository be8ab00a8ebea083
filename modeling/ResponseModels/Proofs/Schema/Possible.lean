import ResponseModels.Proofs.Schema.WellFormed
import Mathlib.Data.List.Perm.Subperm
import Mathlib.Data.Nat.Find

/-! Possible types, and the types that a condition applies to. What an interface leads to is found
although the search is bounded, since the shortest way to a name passes through each interface at
most once. So implementing is transitive, and a condition that applies to a type applies to all
objects that a value of the type may be. -/
namespace ResponseModels

namespace Schema

variable {schema : Schema} {steps : Nat} {start finish : String}

/-- From one interface to another through at most the given number of further interfaces. -/
inductive Leads (schema : Schema) : Nat → String → String → Prop where
  | here (steps : Nat) (name : String) : Leads schema steps name name
  | step {steps : Nat} {start finish : String} {interface : FieldedType} {ref : TypeRef}
      (found : schema.interface? start = some interface) (listed : ref ∈ interface.interfaces)
      (rest : Leads schema steps ref.name finish) : Leads schema (steps + 1) start finish

theorem Leads.mono (h : schema.Leads steps start finish) {more : Nat} (hMore : steps ≤ more) :
    schema.Leads more start finish := by
  induction h generalizing more with
  | here steps name => exact .here more name
  | step found listed rest ih =>
      obtain ⟨less, rfl⟩ : ∃ less, more = less + 1 := ⟨more - 1, by omega⟩
      exact .step found listed (ih (by omega))

theorem Leads.trans {middle : String} {more : Nat} (first : schema.Leads steps start middle)
    (second : schema.Leads more middle finish) : schema.Leads (steps + more) start finish := by
  induction first with
  | here steps name => exact second.mono (by omega)
  | step found listed rest ih =>
      rw [Nat.add_right_comm]
      exact .step found listed (ih second)

theorem reachesInterface_iff (refs : List TypeRef) :
    schema.reachesInterface finish steps refs = true ↔
      ∃ ref ∈ refs, schema.Leads steps ref.name finish := by
  induction steps generalizing refs with
  | zero =>
      simp only [reachesInterface, List.any_eq_true, beq_iff_eq]
      constructor
      · rintro ⟨ref, hRef, rfl⟩
        exact ⟨ref, hRef, .here _ _⟩
      · rintro ⟨ref, hRef, hLeads⟩
        cases hLeads
        exact ⟨ref, hRef, rfl⟩
  | succ steps ih =>
      simp only [reachesInterface, List.any_eq_true, Bool.or_eq_true, beq_iff_eq]
      constructor
      · rintro ⟨ref, hRef, rfl | hNext⟩
        · exact ⟨ref, hRef, .here _ _⟩
        · split at hNext
          · rename_i interface hFound
            obtain ⟨next, hListed, hLeads⟩ := (ih _).mp hNext
            exact ⟨ref, hRef, .step hFound hListed hLeads⟩
          · cases hNext
      · rintro ⟨ref, hRef, hLeads⟩
        refine ⟨ref, hRef, ?_⟩
        cases hLeads with
        | here => exact .inl rfl
        | step found listed rest =>
            right
            rw [found]
            exact (ih _).mpr ⟨_, listed, rest⟩

/-- The number of further interfaces on a shortest way. -/
def Nearest (schema : Schema) (steps : Nat) (start finish : String) : Prop :=
  schema.Leads steps start finish ∧ ∀ fewer < steps, ¬ schema.Leads fewer start finish

theorem mem_keys_of_interface? {interface : FieldedType}
    (h : schema.interface? start = some interface) : start ∈ schema.types.keys := by
  unfold interface? type? at h
  cases hFound : schema.types.get? start with
  | none =>
      rw [hFound] at h
      cases h
  | some type => exact List.mem_map.mpr ⟨_, OrderedMap.mem_entries_of_get? hFound, rfl⟩

/-- The names on a shortest way are pairwise distinct, as each is nearer to the end than the
one before. -/
theorem Nearest.exists_way (h : schema.Nearest steps start finish) :
    ∃ way : List String, way.length = steps ∧ way.Nodup ∧ way ⊆ schema.types.keys ∧
      ∀ name ∈ way, ∃ fewer ≤ steps, schema.Leads fewer name finish := by
  induction steps generalizing start with
  | zero => exact ⟨[], rfl, List.nodup_nil, List.nil_subset _, fun _ h => absurd h List.not_mem_nil⟩
  | succ steps ih =>
      obtain ⟨hLeads, hLeast⟩ := h
      cases hLeads with
      | here => exact absurd (.here 0 _) (hLeast 0 (by omega))
      | @step _ _ _ interface ref found listed rest =>
          have hRef : schema.Nearest steps ref.name finish := by
            refine ⟨rest, fun fewer hFewer hNearer => ?_⟩
            exact hLeast (fewer + 1) (by omega) (.step found listed hNearer)
          obtain ⟨way, hLength, hNodup, hKeys, hNear⟩ := ih hRef
          refine ⟨start :: way, by simp [hLength], List.nodup_cons.mpr ⟨?_, hNodup⟩, ?_, ?_⟩
          · intro hMem
            obtain ⟨fewer, hFewer, hNearer⟩ := hNear start hMem
            exact hLeast fewer (by omega) hNearer
          · exact List.cons_subset.mpr ⟨mem_keys_of_interface? found, hKeys⟩
          · intro name hName
            rcases List.mem_cons.mp hName with rfl | hName
            · exact ⟨steps + 1, Nat.le_refl _, .step found listed rest⟩
            · obtain ⟨fewer, hFewer, hNearer⟩ := hNear name hName
              exact ⟨fewer, by omega, hNearer⟩

/-- A way of any length can be cut short to the number of types. -/
theorem Leads.within_size (h : schema.Leads steps start finish) :
    schema.Leads schema.types.size start finish := by
  classical
  have hSome : ∃ steps, schema.Leads steps start finish := ⟨steps, h⟩
  have hNearest : schema.Nearest (Nat.find hSome) start finish :=
    ⟨Nat.find_spec hSome, fun fewer hFewer => Nat.find_min hSome hFewer⟩
  obtain ⟨way, hLength, hNodup, hKeys, _⟩ := hNearest.exists_way
  refine (Nat.find_spec hSome).mono ?_
  have hBound : way.length ≤ schema.types.keys.length := (hNodup.subperm hKeys).length_le
  have hSize : schema.types.keys.length = schema.types.size := List.length_map _
  omega

/-- A type implements what the interfaces that it lists lead to, however far. -/
theorem implements_iff (type : FieldedType) (name : String) :
    schema.implements type name = true ↔
      ∃ ref ∈ type.interfaces, ∃ steps, schema.Leads steps ref.name name := by
  unfold implements
  rw [reachesInterface_iff]
  constructor
  · rintro ⟨ref, hRef, hLeads⟩
    exact ⟨ref, hRef, _, hLeads⟩
  · rintro ⟨ref, hRef, steps, hLeads⟩
    exact ⟨ref, hRef, hLeads.within_size⟩

theorem implements_trans {type interface : FieldedType} {name : String}
    (hInterface : schema.interface? interface.name = some interface)
    (hType : schema.implements type interface.name = true)
    (hNext : schema.implements interface name = true) : schema.implements type name = true := by
  rw [implements_iff] at hType hNext ⊢
  obtain ⟨ref, hRef, steps, hLeads⟩ := hType
  obtain ⟨next, hListed, more, hMore⟩ := hNext
  exact ⟨ref, hRef, _, hLeads.trans (.step hInterface hListed hMore)⟩

theorem WellFormed.name_of_type? (h : schema.WellFormed) {name : String} {type : SchemaType}
    (hType : schema.type? name = some type) : type.name = name :=
  h.keyed.keyed.name_of_get? hType

theorem WellFormed.keyed_of_type? (h : schema.WellFormed) {name : String} {type : SchemaType}
    (hType : schema.type? name = some type) : type.Keyed :=
  h.keyed.parts type (OrderedMap.mem_values_of_get? hType)

theorem WellFormed.type?_of_object? (h : schema.WellFormed) {name : String}
    {object : FieldedType} (hObject : schema.object? name = some object) :
    object.name = name ∧ schema.type? object.name = some (.object object) := by
  unfold object? at hObject
  cases hType : schema.type? name with
  | none =>
      rw [hType] at hObject
      cases hObject
  | some type =>
      rw [hType] at hObject
      cases type with
      | object found =>
          cases hObject
          have hName : object.name = name := h.name_of_type? hType
          exact ⟨hName, by rw [hName]; exact hType⟩
      | _ => cases hObject

/-- Possible types are objects of the schema. -/
theorem WellFormed.type?_of_possible (h : schema.WellFormed) {name : String}
    {object : FieldedType} (hPossible : object ∈ schema.possibleTypes name) :
    schema.type? object.name = some (.object object) := by
  unfold possibleTypes at hPossible
  split at hPossible
  · rename_i found hType
    rw [List.mem_singleton] at hPossible
    subst hPossible
    have hName : SchemaType.name (.object object) = name := h.name_of_type? hType
    rw [← hName] at hType
    exact hType
  · rw [List.mem_filter, List.mem_filterMap] at hPossible
    obtain ⟨⟨type, hType, hObject⟩, _⟩ := hPossible
    cases type with
    | object found =>
        cases hObject
        exact h.keyed.keyed.get?_name hType
    | _ => cases hObject
  · rename_i union hType
    unfold membersOf at hPossible
    rw [List.mem_filterMap] at hPossible
    obtain ⟨ref, _, hObject⟩ := hPossible
    exact (h.type?_of_object? hObject).2
  · cases hPossible

theorem map_filterMap_sublist {α β : Type} {pick : α → Option β} {before : α → String}
    {after : β → String} (items : List α)
    (h : ∀ item picked, pick item = some picked → after picked = before item) :
    ((items.filterMap pick).map after).Sublist (items.map before) := by
  induction items with
  | nil => exact List.Sublist.slnil
  | cons item rest ih =>
      rw [List.filterMap_cons, List.map_cons]
      cases hPick : pick item with
      | none => exact ih.cons _
      | some picked =>
          rw [List.map_cons, h item picked hPick]
          exact ih.cons_cons _

/-- No object is listed twice among the possible types. -/
theorem WellFormed.nodup_possible (h : schema.WellFormed) (name : String) :
    ((schema.possibleTypes name).map FieldedType.name).Nodup := by
  unfold possibleTypes
  split
  · simp
  · have hObjects : ((schema.types.values.filterMap SchemaType.object?).map
        FieldedType.name).Sublist (schema.types.values.map SchemaType.name) := by
      apply map_filterMap_sublist
      intro type object hObject
      cases type <;> cases hObject
      rfl
    rw [h.keyed.keyed.map_name_values] at hObjects
    exact h.keyed.keyed.nodup.sublist ((List.filter_sublist.map _).trans hObjects)
  · rename_i union hType
    have hKeyed : union.members.Keyed TypeRef.name := h.keyed_of_type? hType
    have hMembers : ((schema.membersOf union).map FieldedType.name).Sublist
        (union.members.values.map TypeRef.name) := by
      apply map_filterMap_sublist
      intro ref object hObject
      exact (h.type?_of_object? hObject).1
    rw [hKeyed.map_name_values] at hMembers
    exact hKeyed.nodup.sublist hMembers
  · simp

/-- A condition that is an object type applies to no other object. -/
theorem name_eq_of_applies {condition object : FieldedType}
    (hCondition : schema.type? condition.name = some (.object condition))
    (hApplies : schema.applies (.object condition) (.object object) = true) :
    condition.name = object.name := by
  simp only [applies, isPossibleTypeOf, SchemaType.name, hCondition, Bool.or_false,
    Bool.or_eq_true, beq_iff_eq] at hApplies
  exact hApplies.elim id Eq.symm

/-- What applies to a type applies to every object that a value of the type may be. -/
theorem WellFormed.applies_possible (h : schema.WellFormed) {condition type : SchemaType}
    {object : FieldedType} (hCondition : schema.type? condition.name = some condition)
    (hType : schema.type? type.name = some type)
    (hPossible : object ∈ schema.possibleTypes type.name)
    (hApplies : schema.applies condition type = true) :
    schema.applies condition (.object object) = true := by
  unfold applies at hApplies ⊢
  simp only [Bool.or_eq_true, beq_iff_eq] at hApplies ⊢
  unfold possibleTypes at hPossible
  rw [hType] at hPossible
  cases type with
  | object found =>
      rw [List.mem_singleton] at hPossible
      subst hPossible
      exact hApplies
  | interface interface =>
      have hFound : schema.interface? interface.name = some interface := by
        unfold interface?
        rw [show schema.type? interface.name = _ from hType]
        rfl
      rw [List.mem_filter] at hPossible
      have hImplements : schema.implements object interface.name = true := hPossible.2
      right
      unfold isPossibleTypeOf
      rw [Bool.or_eq_true]
      right
      rcases hApplies with hSame | hMore
      · rw [hSame]
        simp only [SchemaType.name] at hType ⊢
        rw [hType]
        exact hImplements
      · simp only [Bool.and_eq_true] at hMore
        cases condition with
        | interface wider =>
            simp only [SchemaType.name] at hCondition hMore ⊢
            rw [hCondition]
            exact implements_trans hFound hImplements hMore.2
        | _ => cases hMore.1
  | union union =>
      have hSame : condition.name = union.name := by
        simpa [SchemaType.name] using hApplies
      right
      unfold isPossibleTypeOf
      rw [Bool.or_eq_true]
      right
      rw [hSame]
      simp only [SchemaType.name] at hType
      rw [hType]
      unfold membersOf at hPossible
      rw [List.mem_filterMap] at hPossible
      obtain ⟨ref, hRef, hObject⟩ := hPossible
      have hKeyed : union.members.Keyed TypeRef.name := h.keyed_of_type? hType
      obtain ⟨entry, hEntry, rfl⟩ := List.mem_map.mp hRef
      rw [List.contains_iff_mem, (h.type?_of_object? hObject).1, hKeyed.name_eq entry hEntry]
      exact List.mem_map.mpr ⟨entry, hEntry, rfl⟩
  | _ => cases hPossible

end Schema

end ResponseModels
