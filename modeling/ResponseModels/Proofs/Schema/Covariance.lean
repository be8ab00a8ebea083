import ResponseModels.Proofs.Schema.Possible

/-! Covariant schemas, in which an implementing type declares the fields of its interfaces with
types that are as narrow or narrower. A field that can be selected where a condition is written can
then be selected on every type to which the condition applies. -/
namespace ResponseModels

open GraphQL

/-- What object and interface types have in common. -/
def SchemaType.fielded? : SchemaType → Option FieldedType
  | .interface type => some type
  | .object type => some type
  | _ => none

/-- The type has a field for the name of its values' type, if it has fields at all. -/
def SchemaType.Typenamed (type : SchemaType) : Prop :=
  ∀ fielded ∈ type.fielded?, ∃ field, fielded.fields.get? "__typename" = some field ∧
    field.annotation.innermost.name = "String"

/-- A type without fields has nothing to show. -/
theorem SchemaType.Typenamed.of_none {type : SchemaType} (h : type.fielded? = none) :
    type.Typenamed := by
  intro fielded hFielded
  rw [h] at hFielded
  cases hFielded

namespace Draft

theorem typenamed_fieldedTypeOf {file : Option SourcePath} {decl : TypeDecl}
    {interfaces : List String} {fields : List FieldDecl} {type : FieldedType}
    (h : fieldedTypeOf file decl interfaces fields = .ok type) :
    ∃ field, type.fields.get? "__typename" = some field ∧
      field.annotation.innermost.name = "String" := by
  unfold fieldedTypeOf at h
  rw [Outcome.bind_eq_ok_iff] at h
  obtain ⟨declared, _, h⟩ := h
  cases h
  exact ⟨.typename decl.name _, by rw [OrderedMap.get?_cons, if_pos rfl], rfl⟩

theorem typenamed_typeOf {file : Option SourcePath} {decl : TypeDecl} {type : SchemaType}
    (h : typeOf file decl = .ok type) : type.Typenamed := by
  unfold typeOf at h
  cases hBody : decl.body with
  | object interfaces fields =>
      simp only [hBody, Outcome.bind_eq_ok_iff, Outcome.pure_eq_ok_iff] at h
      obtain ⟨fielded, hFielded, rfl⟩ := h
      rintro _ ⟨⟩
      exact typenamed_fieldedTypeOf hFielded
  | interface interfaces fields =>
      simp only [hBody, Outcome.bind_eq_ok_iff, Outcome.pure_eq_ok_iff] at h
      obtain ⟨fielded, hFielded, rfl⟩ := h
      rintro _ ⟨⟩
      exact typenamed_fieldedTypeOf hFielded
  | union members =>
      simp only [hBody, Outcome.bind_eq_ok_iff, Outcome.pure_eq_ok_iff] at h
      obtain ⟨all, _, rfl⟩ := h
      exact .of_none rfl
  | scalar =>
      simp only [hBody] at h
      cases h
      exact .of_none rfl
  | enum values =>
      simp only [hBody] at h
      cases h
      exact .of_none rfl
  | input fields =>
      simp only [hBody] at h
      cases h
      exact .of_none rfl

/-- An extension adds fields, and leaves those there are alone. -/
theorem get?_extendFielded {file : Option SourcePath} {location : Location}
    {type next : FieldedType} {interfaces : List String} {fields : List FieldDecl} {name : String}
    {field : Field} (hField : type.fields.get? name = some field)
    (h : extendFielded file location type interfaces fields = .ok next) :
    next.fields.get? name = some field := by
  unfold extendFielded at h
  simp only [Outcome.bind_eq_ok_iff, Outcome.pure_eq_ok_iff] at h
  obtain ⟨declared, _, all, hAll, rfl⟩ := h
  refine Outcome.foldlM_keeps (P := fun all : OrderedMap Field => all.get? name = some field)
    ?_ hField hAll
  intro all entry more _ hKept hMore
  unfold includeField at hMore
  split at hMore
  · cases hMore
  · rename_i hNew
    cases hMore
    rw [OrderedMap.get?_insert, if_neg, hKept]
    rintro rfl
    rw [hKept] at hNew
    cases hNew

theorem typenamed_extendType {file : Option SourcePath} {decl : TypeDecl}
    {type next : SchemaType} (hType : type.Typenamed)
    (h : extendType file decl type = .ok next) : next.Typenamed := by
  unfold extendType at h
  simp only at h
  split at h
  · cases h
    exact .of_none rfl
  · rw [Outcome.bind_eq_ok_iff] at h
    obtain ⟨fielded, hFielded, h⟩ := h
    cases h
    rintro _ ⟨⟩
    obtain ⟨field, hField, hName⟩ := hType _ rfl
    exact ⟨field, get?_extendFielded hField hFielded, hName⟩
  · rw [Outcome.bind_eq_ok_iff] at h
    obtain ⟨fielded, hFielded, h⟩ := h
    cases h
    rintro _ ⟨⟩
    obtain ⟨field, hField, hName⟩ := hType _ rfl
    exact ⟨field, get?_extendFielded hField hFielded, hName⟩
  · cases h
    exact .of_none rfl
  · cases h
    exact .of_none rfl
  · cases h
    exact .of_none rfl
  · cases h

end Draft

namespace Schema

variable {schema : Schema}

theorem Built.typenamed (h : schema.Built) {name : String} {type : SchemaType}
    (hType : schema.type? name = some type) : type.Typenamed := by
  have hAll : ∀ type ∈ schema.types.values, type.Typenamed := by
    refine h.types_induct (P := fun types => ∀ type ∈ types.values, type.Typenamed) ?_ ?_ ?_
    · intro type hInitial
      simp only [Draft.initial, OrderedMap.values, List.map_cons, List.map_nil, List.mem_cons,
        List.not_mem_nil, or_false] at hInitial
      rcases hInitial with rfl | rfl | rfl | rfl | rfl <;> exact .of_none rfl
    · intro types file decl defined hTypes hDefined other hOther
      rcases OrderedMap.mem_values_insert hOther with rfl | hOld
      · exact Draft.typenamed_typeOf hDefined
      · exact hTypes other hOld
    · intro types file decl found extended hTypes hFound hExtended other hOther
      rcases OrderedMap.mem_values_replace hOther with rfl | hOld
      · exact Draft.typenamed_extendType (hTypes found (OrderedMap.mem_values_of_get? hFound))
          hExtended
      · exact hTypes other hOld
  exact hAll type (OrderedMap.mem_values_of_get? hType)

theorem WellFormed.interface?_of_type? (h : schema.WellFormed) {name : String}
    {interface : FieldedType} (hType : schema.type? name = some (.interface interface)) :
    schema.interface? interface.name = some interface := by
  have hName : interface.name = name := h.name_of_type? hType
  rw [interface?, hName, hType]
  rfl

/-- How a condition applies to a type: it is the type itself, an interface that the type
implements, or a union that the type is a member of. -/
theorem applies_cases {condition type : SchemaType}
    (hCondition : schema.type? condition.name = some condition)
    (hType : schema.type? type.name = some type) (h : schema.applies condition type = true) :
    condition = type ∨
      (∃ fielded ∈ type.fielded?, ∃ interface, condition = .interface interface ∧
        schema.implements fielded interface.name = true) ∨
      ∃ object union, type = .object object ∧ condition = .union union := by
  by_cases hName : condition.name = type.name
  · left
    rw [hName, hType] at hCondition
    exact (Option.some.inj hCondition).symm
  · right
    unfold applies at h
    rw [beq_eq_false_iff_ne.mpr hName, Bool.false_or] at h
    cases type with
    | object object =>
        have hOther : (object.name == condition.name) = false :=
          beq_eq_false_iff_ne.mpr (Ne.symm hName)
        simp only [isPossibleTypeOf, hOther, Bool.false_or, hCondition] at h
        cases condition with
        | interface interface => exact .inl ⟨object, rfl, interface, rfl, h⟩
        | union union => exact .inr ⟨object, union, rfl, rfl⟩
        | _ => cases h
    | interface fielded =>
        rw [Bool.and_eq_true] at h
        cases condition with
        | interface interface => exact .inl ⟨fielded, rfl, interface, rfl, h.2⟩
        | _ => cases h.1
    | _ => cases h

theorem applies_self (type : SchemaType) : schema.applies type type = true := by
  unfold applies
  rw [beq_self_eq_true, Bool.true_or]

/-- An interface applies to every type that implements it. -/
theorem applies_of_implements {interface fielded : FieldedType} {type : SchemaType}
    (hInterface : schema.type? interface.name = some (.interface interface))
    (hFielded : fielded ∈ type.fielded?)
    (h : schema.implements fielded interface.name = true) :
    schema.applies (.interface interface) type = true := by
  unfold applies
  rw [Bool.or_eq_true]
  right
  cases type with
  | object object =>
      cases hFielded
      simp only [isPossibleTypeOf, SchemaType.name, hInterface, h, Bool.or_true]
  | interface found =>
      cases hFielded
      simp only [SchemaType.interface?, SchemaType.name, h, Option.isSome_some, Bool.and_true]
  | _ => cases hFielded

theorem WellFormed.applies_trans (h : schema.WellFormed) {wide middle narrow : SchemaType}
    (hWide : schema.type? wide.name = some wide)
    (hMiddle : schema.type? middle.name = some middle)
    (hNarrow : schema.type? narrow.name = some narrow)
    (hFirst : schema.applies wide middle = true) (hSecond : schema.applies middle narrow = true) :
    schema.applies wide narrow = true := by
  rcases applies_cases hMiddle hNarrow hSecond with
    rfl | ⟨fielded, hFielded, interface, rfl, hImplements⟩ | ⟨object, union, rfl, rfl⟩
  · exact hFirst
  · have hFound := h.interface?_of_type? hMiddle
    rcases applies_cases hWide hMiddle hFirst with
      rfl | ⟨_, ⟨⟩, wider, rfl, hWider⟩ | ⟨_, _, hObject, _⟩
    · exact hSecond
    · exact applies_of_implements hWide hFielded (implements_trans hFound hImplements hWider)
    · cases hObject
  · rcases applies_cases hWide hMiddle hFirst with rfl | ⟨_, hNone, _⟩ | ⟨_, _, hObject, _⟩
    · exact hSecond
    · cases hNone
    · cases hObject

/-- The first named type is the second one or narrower: an implementing type or a member. -/
def Narrows (schema : Schema) (name other : String) : Prop :=
  name = other ∨ ∃ type ∈ schema.type? name, ∃ condition ∈ schema.type? other,
    schema.applies condition type = true

instance (schema : Schema) (name other : String) : Decidable (schema.Narrows name other) :=
  inferInstanceAs (Decidable (_ ∨ _))

theorem WellFormed.narrows_trans (h : schema.WellFormed) {narrow middle wide : String}
    (hFirst : schema.Narrows narrow middle) (hSecond : schema.Narrows middle wide) :
    schema.Narrows narrow wide := by
  rcases hFirst with rfl | ⟨type, hType, condition, hCondition, hApplies⟩
  · exact hSecond
  · rcases hSecond with rfl | ⟨found, hFound, outer, hOuter, hMore⟩
    · exact .inr ⟨type, hType, condition, hCondition, hApplies⟩
    · rw [Option.mem_def] at hType hCondition hFound hOuter
      rw [hCondition] at hFound
      cases hFound
      refine .inr ⟨type, hType, outer, hOuter, h.applies_trans ?_ ?_ ?_ hMore hApplies⟩
      · rwa [h.name_of_type? hOuter]
      · rwa [h.name_of_type? hCondition]
      · rwa [h.name_of_type? hType]

/-- Every type declares each field of the interfaces that it lists, with a type that is as narrow
or narrower. -/
def Covariant (schema : Schema) : Prop :=
  ∀ type ∈ schema.types.values, ∀ fielded ∈ type.fielded?,
    ∀ interface ∈ schema.interfacesOf fielded, ∀ field ∈ interface.fields.values,
      ∃ own ∈ fielded.fields.get? field.name,
        schema.Narrows own.annotation.innermost.name field.annotation.innermost.name

instance (schema : Schema) : Decidable schema.Covariant :=
  inferInstanceAs (Decidable (∀ type ∈ schema.types.values, _))

/-- A type has the fields of an interface that it lists. -/
theorem Covariant.get?_of_listed (hCovariant : schema.Covariant) (h : schema.WellFormed)
    {type : SchemaType} (hType : type ∈ schema.types.values) {fielded : FieldedType}
    (hFielded : fielded ∈ type.fielded?) {ref : TypeRef} (hRef : ref ∈ fielded.interfaces)
    {interface : FieldedType} (hInterface : schema.interface? ref.name = some interface)
    {name : String} {field : Field} (hField : interface.fields.get? name = some field) :
    ∃ own, fielded.fields.get? name = some own ∧
      schema.Narrows own.annotation.innermost.name field.annotation.innermost.name := by
  have hListed : interface ∈ schema.interfacesOf fielded :=
    List.mem_filterMap.mpr ⟨ref, hRef, hInterface⟩
  obtain ⟨found, hFound, hSame⟩ := Option.bind_eq_some_iff.mp hInterface
  have hKeyed := h.keyed_of_type? hFound
  cases found with
  | interface found =>
      cases hSame
      obtain ⟨own, hOwn, hNarrows⟩ := hCovariant type hType fielded hFielded interface hListed
        field (OrderedMap.mem_values_of_get? hField)
      rw [OrderedMap.Keyed.name_of_get? hKeyed hField] at hOwn
      exact ⟨own, hOwn, hNarrows⟩
  | _ => cases hSame

/-- A type has the fields of all interfaces that it implements, the induction being on the way from
an interface that it lists to the one in question. -/
theorem Covariant.get?_of_leads (hCovariant : schema.Covariant) (h : schema.WellFormed)
    {steps : Nat} {start finish : String} (hLeads : schema.Leads steps start finish)
    {interface : FieldedType} (hInterface : schema.interface? finish = some interface)
    {name : String} {field : Field} (hField : interface.fields.get? name = some field)
    {type : SchemaType} (hType : type ∈ schema.types.values) {fielded : FieldedType}
    (hFielded : fielded ∈ type.fielded?) {ref : TypeRef} (hRef : ref ∈ fielded.interfaces)
    (hStart : ref.name = start) :
    ∃ own, fielded.fields.get? name = some own ∧
      schema.Narrows own.annotation.innermost.name field.annotation.innermost.name := by
  induction hLeads generalizing type fielded ref with
  | here steps name =>
      rw [← hStart] at hInterface
      exact hCovariant.get?_of_listed h hType hFielded hRef hInterface hField
  | @step steps start finish middle next found listed rest ih =>
      obtain ⟨between, hBetween, hSame⟩ := Option.bind_eq_some_iff.mp found
      have hMiddle : middle ∈ between.fielded? := by
        cases between with
        | interface between =>
            cases hSame
            rfl
        | _ => cases hSame
      obtain ⟨passed, hPassed, hNarrows⟩ :=
        ih hInterface (OrderedMap.mem_values_of_get? hBetween) hMiddle listed rfl
      rw [← hStart] at found
      obtain ⟨own, hOwn, hMore⟩ := hCovariant.get?_of_listed h hType hFielded hRef found hPassed
      exact ⟨own, hOwn, h.narrows_trans hMore hNarrows⟩

theorem selectable?_of_fielded {type : SchemaType} {fielded : FieldedType}
    (h : fielded ∈ type.fielded?) (name : String) :
    type.selectable? name = fielded.fields.get? name := by
  cases type with
  | interface type =>
      cases h
      rfl
  | object type =>
      cases h
      rfl
  | _ => cases h

/-- A field that can be selected on a condition can be selected on every type that the condition
applies to, where its type is as narrow or narrower. -/
theorem Covariant.selectable? (hCovariant : schema.Covariant) (hSchema : schema.Built)
    {condition type : SchemaType} (hCondition : schema.type? condition.name = some condition)
    (hType : schema.type? type.name = some type) (hApplies : schema.applies condition type = true)
    {name : String} {field : Field} (hField : condition.selectable? name = some field) :
    ∃ own, type.selectable? name = some own ∧
      schema.Narrows own.annotation.innermost.name field.annotation.innermost.name := by
  have hForm := hSchema.wellFormed
  rcases applies_cases hCondition hType hApplies with
    rfl | ⟨fielded, hFielded, interface, rfl, hImplements⟩ | ⟨object, union, rfl, rfl⟩
  · exact ⟨field, hField, .inl rfl⟩
  · obtain ⟨ref, hRef, steps, hLeads⟩ := (implements_iff _ _).mp hImplements
    rw [selectable?_of_fielded hFielded]
    exact hCovariant.get?_of_leads hForm hLeads (hForm.interface?_of_type? hCondition) hField
      (OrderedMap.mem_values_of_get? hType) hFielded hRef rfl
  · -- On a union nothing but the name of the type can be selected.
    simp only [SchemaType.selectable?] at hField
    split at hField
    · rename_i hName
      cases hField
      obtain ⟨own, hOwn, hString⟩ := hSchema.typenamed hType object rfl
      exact ⟨own, hName ▸ hOwn, .inl hString⟩
    · cases hField

end Schema

end ResponseModels
