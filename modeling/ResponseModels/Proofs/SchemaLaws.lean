import ResponseModels.Proofs.Schema.Assembly
import ResponseModels.Proofs.Schema.References

/-! What every built schema satisfies, whatever definitions, schema blocks and extensions were
loaded in whatever order: names stand where they belong, reserved names are left to the schema
itself, and every reference leads to a type of the right kind. -/
namespace ResponseModels

open GraphQL

/-- Names that begin with two underscores are not for definitions. -/
def ReservedName (name : String) : Prop := "__".toList <+: name.toList

/-- The object and interface types of a schema. -/
structure FieldedType.Lawful (schema : Schema) (type : FieldedType) : Prop where
  /-- `__typename: String!` is the first field. -/
  typename : ∃ field rest, type.fields.entries = ("__typename", field) :: rest ∧
    field.annotation = .named false ⟨"String", type.location⟩
  /-- Fields stand under their own names, and know the type that they belong to. -/
  keyed : type.fields.Keyed Field.name
  parents : ∀ field ∈ type.fields.values, field.parent.name = type.name
  reserved : ∀ name ∈ type.fields.keys, ReservedName name → name = "__typename"
  /-- The types of fields are defined. -/
  fields : ∀ field ∈ type.fields.values, field.annotation.innermost.name ∈ schema.types.keys
  /-- What the type implements is defined as an interface. -/
  interfaces : ∀ ref ∈ type.interfaces, ∃ interface, schema.interface? ref.name = some interface

/-- The laws of a schema. -/
structure Schema.Lawful (schema : Schema) : Prop where
  /-- Types stand under their own names, none of which is reserved. -/
  keyed : schema.types.Keyed SchemaType.name
  unreserved : ∀ name ∈ schema.types.keys, ¬ ReservedName name
  fielded : ∀ type ∈ schema.types.values, ∀ fielded ∈ type.fielded?, fielded.Lawful schema
  /-- The members of a union stand under their own names and are defined as objects. -/
  members : ∀ type ∈ schema.types.values, ∀ union ∈ type.union?,
    union.members.Keyed TypeRef.name ∧
      ∀ ref ∈ union.members.values, ∃ object, schema.object? ref.name = some object
  /-- The types of input fields are defined. -/
  inputs : ∀ input, .input input ∈ schema.types.values →
    ∀ annotation ∈ input.fields.values, annotation.innermost.name ∈ schema.types.keys
  /-- The root types are defined as objects. -/
  roots : ∀ kind, ∀ ref ∈ schema.rootRef? kind, ∃ object, schema.object? ref.name = some object

namespace Draft

theorem isReserved_iff (name : String) : isReserved name = true ↔ ReservedName name := by
  rw [isReserved, ReservedName, List.prefix_iff_eq_take, beq_iff_eq, eq_comm]
  rfl

/-- Types with fields are not built in. -/
theorem exists_definition_of_fielded {definitions extensions : List (Loaded TypeDecl)}
    {type : SchemaType} (hType : type ∈ (settledTypes definitions extensions).values)
    {fielded : FieldedType} (hFielded : fielded ∈ type.fielded?) :
    ∃ definition ∈ definitions,
      fielded = assembledFielded definition (Loads.named definition.2.name extensions) := by
  obtain ⟨entry, hEntry, rfl⟩ := List.mem_map.mp hType
  rcases (mem_settledTypes_iff _ _ _).mp hEntry with hBuiltIn | ⟨definition, hDefinition, rfl⟩
  · simp only [initial, List.mem_cons, List.not_mem_nil, or_false] at hBuiltIn
    rcases hBuiltIn with rfl | rfl | rfl | rfl | rfl <;> cases hFielded
  · exact ⟨definition, hDefinition, eq_of_mem_fielded?_assembled hFielded⟩

theorem parent_assembledFielded {definition : Loaded TypeDecl}
    {extensions : List (Loaded TypeDecl)} {field : Field}
    (h : field ∈ (assembledFielded definition extensions).fields.values) :
    field.parent.name = definition.2.name := by
  rw [assembledFielded, OrderedMap.values, List.map_cons, List.mem_cons, List.map_flatMap,
    List.mem_flatMap] at h
  rcases h with rfl | ⟨part, _, hListed⟩
  · rfl
  · rw [listedFields, List.map_map] at hListed
    obtain ⟨decl, _, rfl⟩ := List.mem_map.mp hListed
    rfl

theorem Assembles.reserved {definition : Loaded TypeDecl} {extensions : List (Loaded TypeDecl)}
    (h : Assembles definition extensions) {name : String}
    (hName : name ∈ (assembledFielded definition extensions).fields.keys)
    (hReserved : ReservedName name) : name = "__typename" := by
  rw [keys_assembledFielded, List.mem_cons] at hName
  rcases hName with rfl | hDeclared
  · rfl
  · rw [← isReserved_iff, h.fields.unreserved name hDeclared] at hReserved
    cases hReserved

theorem Acceptable.unreserved {definitions extensions : List (Loaded TypeDecl)}
    (h : Acceptable definitions extensions) {name : String}
    (hName : name ∈ (settledTypes definitions extensions).keys) : ¬ ReservedName name := by
  have hBuiltIn : ∀ name ∈ initial.types.keys, isReserved name = false := by decide +kernel
  rw [← isReserved_iff, Bool.not_eq_true]
  rw [settledTypes, OrderedMap.keys, List.map_append, List.mem_append, List.map_map] at hName
  rcases hName with hKnown | hDefined
  · exact hBuiltIn name hKnown
  · exact h.names.unreserved name hDefined

end Draft

/-- Built schemas are lawful. -/
theorem Schema.lawful_of_built {schema : Schema} (h : schema.Built) : schema.Lawful := by
  have hFormed := h.wellFormed
  obtain ⟨items, hItems⟩ := schema.built_iff.mp h
  obtain ⟨hAcceptable, roots, _, hFinish⟩ := (Schema.ofItems_eq_ok_iff items schema).mp hItems
  obtain ⟨hGrounded, hQuery, hMutation, hSubscription, hTypes⟩ :=
    (Draft.finish_eq_ok_iff _ _ _).mp hFinish
  rw [← hTypes] at hGrounded hQuery hMutation hSubscription
  refine ⟨hFormed.keyed.keyed, ?_, ?_, ?_, ?_, ?_⟩
  · rw [hTypes]
    exact fun name => hAcceptable.unreserved
  · intro type hType fielded hFielded
    have hReferred : fielded.Grounded schema.types := by
      have hType := hGrounded type hType
      cases type <;> cases hFielded <;> exact hType
    have hKeyed : fielded.fields.Keyed Field.name := by
      have hParts := hFormed.keyed.parts type hType
      cases type <;> cases hFielded <;> exact hParts
    have hSettled := hTypes ▸ hType
    obtain ⟨definition, hDefinition, rfl⟩ :=
      Draft.exists_definition_of_fielded hSettled hFielded
    exact {
      typename := ⟨_, _, rfl, rfl⟩
      keyed := hKeyed
      parents := fun _ => Draft.parent_assembledFielded
      reserved := fun _ => (hAcceptable.assembles definition hDefinition).reserved
      fields := hReferred.fields
      interfaces := fun ref hRef => by
        obtain ⟨interface, hFound⟩ := hReferred.interfaces ref hRef
        exact ⟨interface, by rw [interface?, type?, hFound]; rfl⟩ }
  · intro type hType union hUnion
    refine ⟨?_, hFormed.members type hType union hUnion⟩
    have hParts := hFormed.keyed.parts type hType
    cases type <;> cases hUnion
    exact hParts
  · intro input hInput annotation hAnnotation
    exact hGrounded _ hInput annotation hAnnotation
  · intro kind ref hRef
    have hRoot : ∃ known, Draft.resolveRoot schema.types kind known = .ok (some ref) := by
      cases kind with
      | query =>
          cases hRef
          exact ⟨_, hQuery⟩
      | mutation => exact ⟨_, hMutation.trans (congrArg _ hRef)⟩
      | subscription => exact ⟨_, hSubscription.trans (congrArg _ hRef)⟩
    obtain ⟨known, hResolved⟩ := hRoot
    obtain ⟨object, hFound⟩ := Draft.resolveRoot_eq_ok hResolved
    exact ⟨object, by rw [object?, type?, hFound]; rfl⟩

/-- Books and the shelf that they stand on. The query type is extended before it is defined, and
the union after that, in another file. -/
def shelfItems : List (Loaded SchemaItem) :=
  let file : Option SourcePath := some ⟨"shelf.graphql"⟩
  let id (line : Nat) : FieldDecl := ⟨⟨line, 3⟩, none, "id", .nonNull (.named "ID")⟩
  [(none, .extend ⟨⟨1, 8⟩, none, "Query", .object ["Node"]
      [⟨⟨2, 3⟩, none, "found", .list (.named "Found")⟩]⟩),
    (none, .define ⟨⟨4, 1⟩, none, "Node", .interface [] [id 5]⟩),
    (none, .roots ⟨⟨7, 1⟩, some "Query", some "Book", none⟩),
    (file, .define ⟨⟨1, 1⟩, some "Where all begins.", "Query", .object [] [id 2]⟩),
    (file, .define ⟨⟨4, 1⟩, none, "Book", .object ["Node"]
      [id 5, ⟨⟨6, 3⟩, none, "title", .named "String"⟩]⟩),
    (file, .define ⟨⟨8, 1⟩, none, "Found", .union ["Book"]⟩),
    (none, .extend ⟨⟨1, 8⟩, none, "Found", .union ["Query"]⟩),
    (none, .define ⟨⟨2, 1⟩, none, "Filter", .input
      [⟨⟨3, 3⟩, "genre", .named "Genre"⟩, ⟨⟨4, 3⟩, "other", .named "Filter"⟩]⟩),
    (none, .define ⟨⟨6, 1⟩, none, "Genre", .enum ["PROSE"]⟩),
    (none, .directive)]

theorem shelf_lawful :
    ∃ schema, Schema.ofItems shelfItems = .ok schema ∧ schema.Lawful ∧
      schema.types.keys = ["Boolean", "Float", "ID", "Int", "String", "Node", "Query", "Book",
        "Found", "Filter", "Genre"] ∧
      (schema.object? "Query").map (·.fields.keys) = some ["__typename", "id", "found"] := by
  have hShelf : (Schema.ofItems shelfItems).toOption.map (fun schema =>
      (schema.types.keys, (schema.object? "Query").map (·.fields.keys))) =
      some (["Boolean", "Float", "ID", "Int", "String", "Node", "Query", "Book", "Found",
        "Filter", "Genre"], some ["__typename", "id", "found"]) := by
    decide +kernel
  obtain ⟨schema, hSchema, hShape⟩ := Option.map_eq_some_iff.mp hShelf
  obtain ⟨hKeys, hFields⟩ := Prod.mk.inj hShape
  rw [Outcome.toOption_eq_some_iff] at hSchema
  have hBuilt : schema.Built := schema.built_iff.mpr ⟨shelfItems, hSchema⟩
  exact ⟨schema, hSchema, Schema.lawful_of_built hBuilt, hKeys, hFields⟩

end ResponseModels
