import ResponseModels.Proofs.Schema.Assembly
import ResponseModels.Proofs.Schema.Implementing
import ResponseModels.Proofs.Schema.References

/-! Which objects may stand where a type is expected. Listing the possible types of a name, asking
an object whether it is one of them and asking whether a fragment applies to the object all come to
the same, and a type that a condition applies to has no possible type that the condition has not. -/
namespace ResponseModels

open GraphQL Relation

theorem SchemaType.mem_fielded?_of_object? {type : SchemaType} {object : FieldedType}
    (h : type.object? = some object) : object ∈ type.fielded? := by
  cases type with
  | object found => exact h
  | _ => cases h

theorem SchemaType.mem_fielded?_of_interface? {type : SchemaType} {interface : FieldedType}
    (h : type.interface? = some interface) : interface ∈ type.fielded? := by
  cases type with
  | interface found => exact h
  | _ => cases h

namespace Schema

variable {schema : Schema} {name start finish : String} {object fielded : FieldedType}

/-- The type of the first name lists the second among the interfaces that it implements. -/
def Declares (schema : Schema) (name interface : String) : Prop :=
  ∃ type, schema.type? name = some type ∧ ∃ fielded ∈ type.fielded?,
    ∃ ref ∈ fielded.interfaces, ref.name = interface

theorem declares_iff_of_fielded {type : SchemaType} (hType : schema.type? name = some type)
    (hFielded : fielded ∈ type.fielded?) (interface : String) :
    schema.Declares name interface ↔ ∃ ref ∈ fielded.interfaces, ref.name = interface := by
  constructor
  · rintro ⟨found, hFound, other, hOther, hRef⟩
    obtain rfl : type = found := Option.some.inj (hType.symm.trans hFound)
    obtain rfl : fielded = other := Option.some.inj (Eq.trans (Eq.symm hFielded) hOther)
    exact hRef
  · exact fun hRef => ⟨type, hType, fielded, hFielded, hRef⟩

theorem Leads.reflTransGen {steps : Nat} (h : schema.Leads steps start finish) :
    ReflTransGen schema.Declares start finish := by
  induction h with
  | here => exact .refl
  | step found listed _ ih =>
      obtain ⟨type, hType, hInterface⟩ := Option.bind_eq_some_iff.mp found
      exact .head ⟨type, hType, _, SchemaType.mem_fielded?_of_interface? hInterface, _, listed,
        rfl⟩ ih

/-- What is listed is an interface, so a way on from there leads from interface to interface. -/
theorem WellFormed.exists_leads (h : schema.WellFormed) (hListed : schema.Declares name start)
    (hWay : ReflTransGen schema.Declares start finish) :
    ∃ steps, schema.Leads steps start finish := by
  induction hWay using ReflTransGen.head_induction_on generalizing name with
  | refl => exact ⟨0, .here 0 _⟩
  | head hFirst _ ih =>
      obtain ⟨steps, hLeads⟩ := ih hFirst
      obtain ⟨type, hType, fielded, hFielded, ref, hRef, rfl⟩ := hListed
      have hKind : type.object? = some fielded ∨ type.interface? = some fielded := by
        cases type with
        | object => exact .inl hFielded
        | interface => exact .inr hFielded
        | _ => cases hFielded
      obtain ⟨interface, hInterface⟩ :=
        h.interfaces type (OrderedMap.mem_values_of_get? hType) fielded hKind ref hRef
      obtain ⟨found, hFound, hSame⟩ := Option.bind_eq_some_iff.mp hInterface
      obtain ⟨next, hNext, rfl⟩ := (declares_iff_of_fielded hFound
        (SchemaType.mem_fielded?_of_interface? hSame) _).mp hFirst
      exact ⟨steps + 1, .step hInterface hNext hLeads⟩

/-- A type implements what it leads to by one or more steps from a type to an interface that the
type lists. -/
theorem WellFormed.implements_iff_transGen (h : schema.WellFormed) {type : SchemaType}
    (hType : schema.type? type.name = some type) (hFielded : fielded ∈ type.fielded?) :
    schema.implements fielded name = true ↔ TransGen schema.Declares type.name name := by
  rw [implements_iff, TransGen.head'_iff]
  constructor
  · rintro ⟨ref, hRef, steps, hLeads⟩
    exact ⟨ref.name, ⟨type, hType, fielded, hFielded, ref, hRef, rfl⟩, hLeads.reflTransGen⟩
  · rintro ⟨next, hListed, hWay⟩
    obtain ⟨ref, hRef, rfl⟩ := (declares_iff_of_fielded hType hFielded next).mp hListed
    exact ⟨ref, hRef, h.exists_leads hListed hWay⟩

/-- Members of a union stand under their names and are objects, so an object is a member exactly if
its name is. -/
theorem WellFormed.mem_membersOf_iff (h : schema.WellFormed) {union : UnionType}
    (hUnion : schema.type? name = some (.union union))
    (hObject : schema.type? object.name = some (.object object)) :
    object ∈ schema.membersOf union ↔ object.name ∈ union.members.keys := by
  have hKeyed : union.members.Keyed TypeRef.name := h.keyed_of_type? hUnion
  rw [membersOf, List.mem_filterMap, ← hKeyed.map_name_values, List.mem_map]
  refine exists_congr fun ref => and_congr_right fun _ => ?_
  constructor
  · exact fun hFound => (h.type?_of_object? hFound).1.symm
  · intro hName
    rw [object?, hName, hObject]
    rfl

/-- An object is among the possible types of a name exactly if it says so itself. -/
theorem WellFormed.mem_possibleTypes_iff (h : schema.WellFormed)
    (hObject : schema.type? object.name = some (.object object)) (name : String) :
    object ∈ schema.possibleTypes name ↔ schema.isPossibleTypeOf object name = true := by
  by_cases hName : object.name = name
  · subst hName
    simp [possibleTypes, isPossibleTypeOf, hObject]
  · have hOwn : (object.name == name) = false := by simpa using hName
    rw [isPossibleTypeOf, hOwn, Bool.false_or, possibleTypes]
    cases hType : schema.type? name with
    | none => simp
    | some type =>
        cases type with
        | object other =>
            have hOther : other.name = name := h.name_of_type? hType
            have hDiffers : object ≠ other := fun hSame => hName (hSame ▸ hOther)
            simp [hDiffers]
        | interface interface =>
            have hListed : object ∈ schema.types.values.filterMap SchemaType.object? :=
              List.mem_filterMap.mpr ⟨_, OrderedMap.mem_values_of_get? hObject, rfl⟩
            rw [List.mem_filter]
            exact and_iff_right hListed
        | union union => exact (h.mem_membersOf_iff hType hObject).trans List.contains_iff_mem.symm
        | _ => simp

/-- A fragment applies to an object exactly if the object is a possible type of the condition. -/
theorem applies_object (condition : SchemaType) (object : FieldedType) :
    schema.applies condition (.object object) =
      schema.isPossibleTypeOf object condition.name := by
  rw [applies, Bool.eq_iff_iff, Bool.or_eq_true]
  refine or_iff_right_of_imp fun hSame => ?_
  rw [isPossibleTypeOf, Bool.or_eq_true]
  rw [beq_iff_eq] at hSame
  exact .inl (beq_iff_eq.mpr hSame.symm)

/-- The objects that implement an interface stand in the order of their definitions. -/
theorem possibleTypes_interface_sublist {items : List (Loaded SchemaItem)}
    (hItems : Schema.ofItems items = .ok schema) {interface : FieldedType}
    (hInterface : schema.type? name = some (.interface interface)) :
    ((schema.possibleTypes name).map FieldedType.name).Sublist
      ((Loads.definitions items).map (·.2.name)) := by
  obtain ⟨_, roots, _, hFinish⟩ := (Schema.ofItems_eq_ok_iff items schema).mp hItems
  obtain ⟨_, _, _, _, hTypes⟩ := (Draft.finish_eq_ok_iff _ _ _).mp hFinish
  have hBuiltIn : Draft.initial.types.values.filterMap SchemaType.object? = [] := rfl
  have hObjects : schema.types.values.filterMap SchemaType.object? =
      ((Loads.definitions items).map fun definition => Draft.assembled definition
        (Loads.named definition.2.name (Loads.extensions items))).filterMap
          SchemaType.object? := by
    rw [hTypes, Draft.settledTypes, OrderedMap.values, List.map_append, List.filterMap_append]
    exact (congrArg (· ++ _) hBuiltIn).trans (by simp [Function.comp_def])
  rw [possibleTypes, hInterface]
  dsimp only
  rw [hObjects]
  refine (List.filter_sublist.map _).trans ?_
  rw [List.filterMap_map]
  apply map_filterMap_sublist
  intro definition object hObject
  rw [Draft.eq_of_mem_fielded?_assembled (SchemaType.mem_fielded?_of_object? hObject)]
  rfl

/-- The members of a union stand in the order of the union, and all of them are there. -/
theorem WellFormed.map_name_possibleTypes_union (h : schema.WellFormed) {union : UnionType}
    (hUnion : schema.type? name = some (.union union)) :
    (schema.possibleTypes name).map FieldedType.name = union.members.keys := by
  have hKeyed : union.members.Keyed TypeRef.name := h.keyed_of_type? hUnion
  have hMembers := h.members _ (OrderedMap.mem_values_of_get? hUnion) union rfl
  rw [possibleTypes, hUnion, ← hKeyed.map_name_values]
  dsimp only
  rw [membersOf]
  generalize union.members.values = refs at hMembers
  induction refs with
  | nil => rfl
  | cons ref rest ih =>
      obtain ⟨object, hObject⟩ := hMembers ref List.mem_cons_self
      rw [List.filterMap_cons, hObject, List.map_cons, List.map_cons,
        ih fun other hOther => hMembers other (List.mem_cons_of_mem _ hOther),
        (h.type?_of_object? hObject).1]

/-- The views on which objects a value may be. -/
structure ViewsAgree (schema : Schema) : Prop where
  /-- Objects and interfaces implement what they lead to by one or more steps, each from a type to
  an interface that it lists, and the search for an interface comes to an end. -/
  implementing : ∀ type ∈ schema.types.values, ∀ fielded ∈ type.fielded?, ∀ name,
    (schema.implements fielded name = true ↔ TransGen schema.Declares type.name name) ∧
      schema.Searches name fielded.interfaces (schema.implements fielded name)
  /-- All possible types are objects of the schema. -/
  objects : ∀ name, ∀ object ∈ schema.possibleTypes name, .object object ∈ schema.types.values
  listed : ∀ object, .object object ∈ schema.types.values → ∀ name,
    object ∈ schema.possibleTypes name ↔ schema.isPossibleTypeOf object name = true
  applying : ∀ object, .object object ∈ schema.types.values → ∀ name condition,
    schema.type? name = some condition →
      (object ∈ schema.possibleTypes name ↔ schema.applies condition (.object object) = true)
  nodup : ∀ name, ((schema.possibleTypes name).map FieldedType.name).Nodup
  /-- The objects of an interface come in the order in which they were defined. -/
  defined : ∀ items, Schema.ofItems items = .ok schema → ∀ name interface,
    schema.type? name = some (.interface interface) →
      ((schema.possibleTypes name).map FieldedType.name).Sublist
        ((Loads.definitions items).map (·.2.name))
  members : ∀ name union, schema.type? name = some (.union union) →
    (schema.possibleTypes name).map FieldedType.name = union.members.keys
  /-- A condition that applies to a type has all possible types of the type. -/
  monotone : ∀ condition ∈ schema.types.values, ∀ type ∈ schema.types.values,
    schema.applies condition type = true →
      schema.possibleTypes type.name ⊆ schema.possibleTypes condition.name

end Schema

/-- In a built schema whose interfaces do not implement themselves all views agree. -/
theorem possible_type_views_agree {schema : Schema} (hBuilt : schema.Built)
    (hAcyclic : schema.Acyclic) : schema.ViewsAgree := by
  have h := hBuilt.wellFormed
  have hFound : ∀ type ∈ schema.types.values, schema.type? type.name = some type :=
    fun type hType => h.keyed.keyed.get?_name hType
  have hApplies : ∀ object, schema.type? object.name = some (.object object) → ∀ condition,
      object ∈ schema.possibleTypes condition.name ↔
        schema.applies condition (.object object) = true := by
    intro object hObject condition
    rw [h.mem_possibleTypes_iff hObject, Schema.applies_object]
  refine ⟨?_, ?_, ?_, ?_, h.nodup_possible, ?_, ?_, ?_⟩
  · intro type hType fielded hFielded name
    exact ⟨h.implements_iff_transGen (hFound type hType) hFielded, hAcyclic.searches fielded name⟩
  · exact fun name object hPossible =>
      OrderedMap.mem_values_of_get? (h.type?_of_possible hPossible)
  · exact fun object hObject => h.mem_possibleTypes_iff (hFound _ hObject)
  · intro object hObject name condition hCondition
    rw [← h.name_of_type? hCondition]
    exact hApplies object (hFound _ hObject) condition
  · exact fun items hItems name interface => Schema.possibleTypes_interface_sublist hItems
  · exact fun name union => h.map_name_possibleTypes_union
  · intro condition hCondition type hType hMore object hPossible
    rw [hApplies object (h.type?_of_possible hPossible)]
    exact h.applies_possible (hFound _ hCondition) (hFound _ hType) hPossible hMore

/-- Books and films, of which books are nodes by way of being named. -/
def mediaItems : List (Loaded SchemaItem) :=
  let id : FieldDecl := ⟨⟨1, 1⟩, none, "id", .named "ID"⟩
  [(none, .define ⟨⟨1, 1⟩, none, "Film", .object ["Node"] [id]⟩),
    (none, .define ⟨⟨2, 1⟩, none, "Named", .interface ["Node"] [id]⟩),
    (none, .define ⟨⟨3, 1⟩, none, "Found", .union ["Book"]⟩),
    (none, .extend ⟨⟨4, 1⟩, none, "Book", .object ["Named"] []⟩),
    (none, .define ⟨⟨5, 1⟩, none, "Book", .object [] [id]⟩),
    (none, .define ⟨⟨6, 1⟩, none, "Query", .object [] [id]⟩),
    (none, .extend ⟨⟨7, 1⟩, none, "Found", .union ["Film"]⟩),
    (none, .define ⟨⟨8, 1⟩, none, "Node", .interface [] [id]⟩)]

theorem media_views_agree :
    ∃ schema, Schema.ofItems mediaItems = .ok schema ∧ schema.Acyclic ∧ schema.ViewsAgree ∧
      (schema.possibleTypes "Node").map FieldedType.name = ["Film", "Book"] ∧
      (schema.possibleTypes "Found").map FieldedType.name = ["Book", "Film"] := by
  have hMedia : (Schema.ofItems mediaItems).toOption.map (fun schema =>
      ((schema.possibleTypes "Node").map FieldedType.name,
        (schema.possibleTypes "Found").map FieldedType.name,
        decide (∀ entry ∈ schema.types.entries, ∀ interface ∈ entry.2.interface?,
          ∀ ref ∈ interface.interfaces,
            ["Node", "Named"].idxOf ref.name < ["Node", "Named"].idxOf entry.1))) =
      some (["Film", "Book"], ["Book", "Film"], true) := by
    decide +kernel
  obtain ⟨schema, hSchema, hShape⟩ := Option.map_eq_some_iff.mp hMedia
  simp only [Prod.mk.injEq, decide_eq_true_eq] at hShape
  obtain ⟨hNode, hFound, hRanked⟩ := hShape
  rw [Outcome.toOption_eq_some_iff] at hSchema
  have hBuilt : schema.Built := schema.built_iff.mpr ⟨mediaItems, hSchema⟩
  have hAcyclic : schema.Acyclic :=
    Schema.acyclic_of_rank (fun name => ["Node", "Named"].idxOf name) hRanked
  exact ⟨schema, hSchema, hAcyclic, possible_type_views_agree hBuilt hAcyclic, hNode, hFound⟩

end ResponseModels
