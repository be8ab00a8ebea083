import ResponseModels.Proofs.Schema.Loads

/-! The checks at the end of a build. They pass exactly if every reference leads to a type, and to
one of the right kind where that matters; the schema then holds the types as they were checked. -/
namespace ResponseModels

open GraphQL

namespace FieldedType

/-- What an object or interface type refers to is defined. -/
structure Grounded (types : OrderedMap SchemaType) (type : FieldedType) : Prop where
  fields : ∀ field ∈ type.fields.values, field.annotation.innermost.name ∈ types.keys
  interfaces : ∀ ref ∈ type.interfaces,
    ∃ interface, types.get? ref.name = some (.interface interface)

end FieldedType

/-- What a type refers to is defined. -/
def SchemaType.Grounded (types : OrderedMap SchemaType) : SchemaType → Prop
  | .interface type => type.Grounded types
  | .object type => type.Grounded types
  | .union type => ∀ ref ∈ type.members.values,
    ∃ object, types.get? ref.name = some (.object object)
  | .input type => ∀ annotation ∈ type.fields.values, annotation.innermost.name ∈ types.keys
  | _ => True

namespace Draft

variable {types : OrderedMap SchemaType}

theorem checkRef_eq_ok_iff (ref : TypeRef) :
    checkRef types ref = .ok () ↔ ref.name ∈ types.keys := by
  unfold checkRef
  rw [← types.contains_eq_true_iff]
  split <;> simp_all

theorem checkRef_of_get? {ref : TypeRef} {type : SchemaType}
    (h : types.get? ref.name = some type) : checkRef types ref = .ok () := by
  rw [checkRef, OrderedMap.contains, h]
  rfl

theorem checkInterface_eq_ok_iff (typeName : String) (ref : TypeRef) :
    checkInterface types typeName ref = .ok () ↔
      ∃ interface, types.get? ref.name = some (.interface interface) := by
  refine ⟨checkInterface_eq_ok, ?_⟩
  rintro ⟨interface, hFound⟩
  unfold checkInterface
  rw [checkRef_of_get? hFound, hFound]
  rfl

theorem checkMember_eq_ok_iff (unionName : String) (ref : TypeRef) :
    checkMember types unionName ref = .ok () ↔
      ∃ object, types.get? ref.name = some (.object object) := by
  refine ⟨checkMember_eq_ok, ?_⟩
  rintro ⟨object, hFound⟩
  unfold checkMember
  rw [checkRef_of_get? hFound, hFound]
  rfl

theorem checkFielded_eq_ok_iff (type : FieldedType) :
    checkFielded types type = .ok () ↔ type.Grounded types := by
  unfold checkFielded
  simp only [Outcome.bind_eq_ok_iff, Outcome.forM_eq_ok_iff, checkRef_eq_ok_iff,
    checkInterface_eq_ok_iff]
  constructor
  · rintro ⟨_, hFields, hInterfaces⟩
    exact ⟨hFields, hInterfaces⟩
  · rintro ⟨hFields, hInterfaces⟩
    exact ⟨(), hFields, hInterfaces⟩

/-- The check of a type passes exactly if what the type refers to is defined. -/
theorem checkType_eq_ok_iff (type : SchemaType) :
    checkType types type = .ok () ↔ type.Grounded types := by
  cases type with
  | interface type => exact checkFielded_eq_ok_iff type
  | object type => exact checkFielded_eq_ok_iff type
  | union type =>
      simp only [checkType, Outcome.forM_eq_ok_iff, checkMember_eq_ok_iff, SchemaType.Grounded]
  | input type =>
      simp only [checkType, Outcome.forM_eq_ok_iff, checkRef_eq_ok_iff, SchemaType.Grounded]
  | _ => simp [checkType, SchemaType.Grounded]

/-- A root type is settled as an object type. -/
theorem resolveRoot_eq_ok {kind : OperationKind} {known : Option TypeRef} {ref : TypeRef}
    (h : resolveRoot types kind known = .ok (some ref)) :
    ∃ object, types.get? ref.name = some (.object object) := by
  unfold resolveRoot at h
  split at h
  · split at h
    · rename_i object hFound
      cases h
      exact ⟨object, hFound⟩
    · cases h
  · split at h
    · rename_i object hFound
      cases h
      exact ⟨object, hFound⟩
    · cases h

theorem finish_eq_ok_iff (roots : Roots) (types : OrderedMap SchemaType) (schema : Schema) :
    finish roots types = .ok schema ↔
      (∀ type ∈ types.values, type.Grounded types) ∧
        resolveRoot types .query roots.query = .ok (some schema.query) ∧
        resolveRoot types .mutation roots.mutation = .ok schema.mutation ∧
        resolveRoot types .subscription roots.subscription = .ok schema.subscription ∧
        schema.types = types := by
  obtain ⟨mutation, query, subscription, found⟩ := schema
  unfold finish
  simp only [Outcome.bind_eq_ok_iff, Outcome.forM_eq_ok_iff, checkType_eq_ok_iff]
  constructor
  · rintro ⟨_, hGrounded, root, hQuery, h⟩
    cases root with
    | none => cases h
    | some ref =>
        simp only [Outcome.bind_eq_ok_iff, Outcome.pure_eq_ok_iff] at h
        obtain ⟨_, hMutation, _, hSubscription, h⟩ := h
        cases h
        exact ⟨hGrounded, hQuery, hMutation, hSubscription, rfl⟩
  · rintro ⟨hGrounded, hQuery, hMutation, hSubscription, rfl⟩
    refine ⟨(), hGrounded, some query, hQuery, ?_⟩
    simp only [Outcome.bind_eq_ok_iff]
    exact ⟨mutation, hMutation, subscription, hSubscription, rfl⟩

end Draft

end ResponseModels
