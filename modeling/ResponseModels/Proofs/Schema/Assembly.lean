import ResponseModels.Proofs.Schema.Covariance
import ResponseModels.Proofs.Schema.Loads
import Mathlib.Data.List.Induction

/-! The types of a built schema in closed form. A definition and the extensions of its name are
the parts of a type: the type lists what its parts list, in load order. Built-in types have no
parts and take no extension. -/
namespace ResponseModels

open GraphQL

namespace GraphQL.TypeBody

/-- The kind of type that the items are for. -/
def kind : TypeBody → TypeKind
  | .scalar => .scalar
  | .object _ _ => .object
  | .interface _ _ => .interface
  | .union _ => .union
  | .enum _ => .enum
  | .input _ => .input

def interfaces : TypeBody → List String
  | .object interfaces _ => interfaces
  | .interface interfaces _ => interfaces
  | _ => []

def fields : TypeBody → List FieldDecl
  | .object _ fields => fields
  | .interface _ fields => fields
  | _ => []

def members : TypeBody → List String
  | .union members => members
  | _ => []

def values : TypeBody → List String
  | .enum values => values
  | _ => []

def inputs : TypeBody → List InputDecl
  | .input fields => fields
  | _ => []

section Accessors

variable (names : List String) (decls : List FieldDecl) (inputDecls : List InputDecl)

@[simp] theorem interfaces_object : (TypeBody.object names decls).interfaces = names := rfl

@[simp] theorem interfaces_interface : (TypeBody.interface names decls).interfaces = names := rfl

@[simp] theorem fields_object : (TypeBody.object names decls).fields = decls := rfl

@[simp] theorem fields_interface : (TypeBody.interface names decls).fields = decls := rfl

@[simp] theorem members_union : (TypeBody.union names).members = names := rfl

@[simp] theorem values_enum : (TypeBody.enum names).values = names := rfl

@[simp] theorem inputs_input : (TypeBody.input inputDecls).inputs = inputDecls := rfl

end Accessors

theorem fields_eq_nil_of_kind {body : TypeBody} (hObject : body.kind ≠ .object)
    (hInterface : body.kind ≠ .interface) : body.fields = [] := by
  cases body with
  | object interfaces fields => exact absurd rfl hObject
  | interface interfaces fields => exact absurd rfl hInterface
  | _ => rfl

end GraphQL.TypeBody

namespace Draft

/-- The fields that one part of a type lists. -/
def listedFields (typeName : String) (part : Loaded TypeDecl) : List (String × Field) :=
  part.2.body.fields.map (fieldEntry part.1 typeName)

/-- The interfaces that one part of a type lists. -/
def listedInterfaces (part : Loaded TypeDecl) : List TypeRef :=
  part.2.body.interfaces.map (⟨·, .ofSchema part.1 part.2.position⟩)

/-- The members that one part of a union lists. -/
def listedMembers (part : Loaded TypeDecl) : List (String × TypeRef) :=
  part.2.body.members.map (memberEntry (.ofSchema part.1 part.2.position))

/-- The fields that one part of an input type lists. -/
def listedInputs (part : Loaded TypeDecl) : List (String × Annotation) :=
  part.2.body.inputs.map (inputField part.1)

/-- The object or interface type of a definition and its extensions. -/
def assembledFielded (definition : Loaded TypeDecl) (extensions : List (Loaded TypeDecl)) :
    FieldedType :=
  let location := Location.ofSchema definition.1 definition.2.position
  let name := definition.2.name
  { location := location
    description := definition.2.description
    fields := ⟨("__typename", .typename name location) ::
      (definition :: extensions).flatMap (listedFields name)⟩
    interfaces := (definition :: extensions).flatMap listedInterfaces
    name := name }

/-- The type of a definition and its extensions. -/
def assembled (definition : Loaded TypeDecl) (extensions : List (Loaded TypeDecl)) : SchemaType :=
  let location := Location.ofSchema definition.1 definition.2.position
  let description := definition.2.description
  let name := definition.2.name
  let parts := definition :: extensions
  match definition.2.body with
  | .scalar => .scalar ⟨location, description, name⟩
  | .object _ _ => .object (assembledFielded definition extensions)
  | .interface _ _ => .interface (assembledFielded definition extensions)
  | .union _ => .union ⟨location, description, name, .ofList (parts.flatMap listedMembers)⟩
  | .enum _ => .enum ⟨location, description, name, parts.flatMap (·.2.body.values)⟩
  | .input _ => .input ⟨location, description, .ofList (parts.flatMap listedInputs), name⟩

theorem eq_of_mem_fielded?_assembled {definition : Loaded TypeDecl}
    {extensions : List (Loaded TypeDecl)} {fielded : FieldedType}
    (h : fielded ∈ (assembled definition extensions).fielded?) :
    fielded = assembledFielded definition extensions := by
  unfold assembled at h
  split at h <;> cases h <;> rfl

/-- The names of the fields that the parts of a type declare. -/
def declaredNames (parts : List (Loaded TypeDecl)) : List String :=
  parts.flatMap fun part => part.2.body.fields.map FieldDecl.name

/-- A definition and extensions that make up a type. A union may list a member again in an
extension, and an input type a field anywhere. -/
structure Assembles (definition : Loaded TypeDecl) (extensions : List (Loaded TypeDecl)) :
    Prop where
  kinds : ∀ extension ∈ extensions, extension.2.body.kind = definition.2.body.kind
  fields : Admits [] (declaredNames (definition :: extensions))
  members : definition.2.body.members.Nodup

/-- As its name is reserved, the implicit field is in the way of no other. -/
theorem admits_typename_iff (known names : List String) :
    Admits ("__typename" :: known) names ↔ Admits known names := by
  constructor
  · rintro ⟨hUnreserved, hDistinct, hFresh⟩
    exact ⟨hUnreserved, hDistinct, (List.disjoint_cons_left.mp hFresh).2⟩
  · rintro ⟨hUnreserved, hDistinct, hFresh⟩
    refine ⟨hUnreserved, hDistinct, List.disjoint_cons_left.mpr ⟨?_, hFresh⟩⟩
    intro hTypename
    exact absurd (hUnreserved _ hTypename) (by decide +kernel)

theorem keys_assembledFielded (definition : Loaded TypeDecl)
    (extensions : List (Loaded TypeDecl)) :
    (assembledFielded definition extensions).fields.keys =
      "__typename" :: declaredNames (definition :: extensions) := by
  simp [assembledFielded, OrderedMap.keys, declaredNames, listedFields, fieldEntry,
    List.map_flatMap, Function.comp_def]

/-- Without extensions a type is as its definition writes it. -/
theorem assembled_nil {definition : Loaded TypeDecl} (h : definition.2.body.members.Nodup) :
    assembled definition [] = written definition.1 definition.2 := by
  obtain ⟨file, position, description, name, body⟩ := definition
  cases body with
  | union members =>
      have hKeys : (([((file, ⟨position, description, name, .union members⟩) :
          Loaded TypeDecl)].flatMap listedMembers).map Prod.fst).Nodup := by
        simpa [listedMembers, TypeBody.members, memberEntry, Function.comp_def] using h
      simp only [assembled, OrderedMap.ofList_eq _ hKeys]
      simp [written, listedMembers, TypeBody.members]
  | _ =>
      simp [assembled, assembledFielded, written, writtenFielded, listedFields, listedInterfaces,
        listedInputs, TypeBody.fields, TypeBody.interfaces, TypeBody.inputs, TypeBody.values]

section Step

variable (definition : Loaded TypeDecl) (extensions : List (Loaded TypeDecl))
  (extension : Loaded TypeDecl)

theorem extendedFielded_assembled (interfaces : List String) (fields : List FieldDecl)
    (hInterfaces : extension.2.body.interfaces = interfaces)
    (hFields : extension.2.body.fields = fields) :
    extendedFielded extension.1 (.ofSchema extension.1 extension.2.position)
        (assembledFielded definition extensions) interfaces fields =
      assembledFielded definition (extensions ++ [extension]) := by
  simp [extendedFielded, assembledFielded, listedFields, listedInterfaces, hInterfaces, hFields]

/-- An extension of the type's kind becomes one more part of it. -/
theorem extended_assembled (hKind : extension.2.body.kind = definition.2.body.kind) :
    extended extension.1 extension.2 (assembled definition extensions) =
      assembled definition (extensions ++ [extension]) := by
  have hFielded := extendedFielded_assembled definition extensions extension
  unfold assembled extended
  cases hBody : definition.2.body <;> cases hExtension : extension.2.body <;>
    simp only [hBody, hExtension, TypeBody.kind, reduceCtorEq] at hKind
  case object.object =>
    exact congrArg _ (hFielded _ _ (by rw [hExtension]; rfl) (by rw [hExtension]; rfl))
  case interface.interface =>
    exact congrArg _ (hFielded _ _ (by rw [hExtension]; rfl) (by rw [hExtension]; rfl))
  case union.union =>
    simp [listedMembers, hExtension, ← OrderedMap.ofList_append, TypeBody.members]
  case enum.enum =>
    simp [hExtension, TypeBody.values]
  case input.input =>
    simp [listedInputs, hExtension, ← OrderedMap.ofList_append, TypeBody.inputs]
  case scalar.scalar => rfl

/-- Extensions can come in exactly if they are of the type's kind and their fields are new. -/
theorem extends_assembled_iff :
    Extends extension.2.body (assembled definition extensions) ↔
      extension.2.body.kind = definition.2.body.kind ∧
        Admits (declaredNames (definition :: extensions))
          (extension.2.body.fields.map FieldDecl.name) := by
  unfold assembled Extends
  cases definition.2.body <;> cases extension.2.body <;>
    simp [TypeBody.kind, TypeBody.fields, keys_assembledFielded, admits_typename_iff, Admits.nil]

end Step

/-- A type with extensions, one after the other. -/
def extendedBy (extensions : List (Loaded TypeDecl)) (type : SchemaType) : SchemaType :=
  extensions.foldl (fun type extension => extended extension.1 extension.2 type) type

/-- Each of the extensions can come in after those before it. -/
def ExtendsAll : List (Loaded TypeDecl) → SchemaType → Prop
  | [], _ => True
  | extension :: rest, type =>
    Extends extension.2.body type ∧ ExtendsAll rest (extended extension.1 extension.2 type)

theorem extendsAll_append_iff (extensions more : List (Loaded TypeDecl)) (type : SchemaType) :
    ExtendsAll (extensions ++ more) type ↔
      ExtendsAll extensions type ∧ ExtendsAll more (extendedBy extensions type) := by
  induction extensions generalizing type with
  | nil => simp [ExtendsAll, extendedBy]
  | cons extension rest ih =>
      simp only [List.cons_append, ExtendsAll, ih, and_assoc]
      rfl

theorem assembles_nil_iff (definition : Loaded TypeDecl) :
    Assembles definition [] ↔ Declarable definition.2.body := by
  constructor
  · rintro ⟨_, hFields, hMembers⟩
    simp only [declaredNames, List.flatMap_cons, List.flatMap_nil, List.append_nil] at hFields
    unfold Declarable
    cases hBody : definition.2.body <;>
      simp_all [TypeBody.fields, TypeBody.members]
  · intro h
    refine ⟨by simp, ?_, ?_⟩ <;>
      cases hBody : definition.2.body <;>
        simp_all [declaredNames, TypeBody.fields, TypeBody.members, Declarable, Admits.nil]

theorem assembles_concat_iff (definition : Loaded TypeDecl)
    (extensions : List (Loaded TypeDecl)) (extension : Loaded TypeDecl) :
    Assembles definition (extensions ++ [extension]) ↔
      Assembles definition extensions ∧
        Extends extension.2.body (assembled definition extensions) := by
  have hFields : declaredNames (definition :: (extensions ++ [extension])) =
      declaredNames (definition :: extensions) ++
        extension.2.body.fields.map FieldDecl.name := by
    simp [declaredNames]
  rw [extends_assembled_iff]
  constructor
  · rintro ⟨hKinds, hAdmits, hMembers⟩
    rw [List.forall_mem_append, List.forall_mem_singleton] at hKinds
    rw [hFields, admits_append_iff] at hAdmits
    exact ⟨⟨hKinds.1, hAdmits.1, hMembers⟩, hKinds.2, hAdmits.2⟩
  · rintro ⟨⟨hKinds, hAdmits, hMembers⟩, hKind, hMore⟩
    refine ⟨List.forall_mem_append.mpr ⟨hKinds, List.forall_mem_singleton.mpr hKind⟩, ?_,
      hMembers⟩
    rw [hFields, admits_append_iff]
    exact ⟨hAdmits, hMore⟩

theorem extendedBy_written {definition : Loaded TypeDecl} {extensions : List (Loaded TypeDecl)}
    (h : Assembles definition extensions) :
    extendedBy extensions (written definition.1 definition.2) =
      assembled definition extensions := by
  induction extensions using List.reverseRecOn with
  | nil => exact (assembled_nil h.members).symm
  | append_singleton rest extension ih =>
      obtain ⟨hRest, _⟩ := (assembles_concat_iff _ _ _).mp h
      have hKind := h.kinds extension (by simp)
      rw [← extended_assembled _ _ _ hKind, ← ih hRest]
      simp [extendedBy]

/-- A definition and extensions are accepted exactly if they make up a type. -/
theorem assembles_iff (definition : Loaded TypeDecl) (extensions : List (Loaded TypeDecl)) :
    Assembles definition extensions ↔ Declarable definition.2.body ∧
      ExtendsAll extensions (written definition.1 definition.2) := by
  induction extensions using List.reverseRecOn with
  | nil => simp [assembles_nil_iff, ExtendsAll]
  | append_singleton rest extension ih =>
      rw [assembles_concat_iff, extendsAll_append_iff, ← and_assoc, ← ih]
      refine and_congr_right fun hRest => ?_
      rw [extendedBy_written hRest]
      simp [ExtendsAll]

/-- An extension concerns the type of its own name, and passes the others by. -/
def extendedFor (extension : Loaded TypeDecl) (name : String) (type : SchemaType) : SchemaType :=
  if name = extension.2.name then extended extension.1 extension.2 type else type

theorem extendedBy_named_cons (extension : Loaded TypeDecl) (rest : List (Loaded TypeDecl))
    (name : String) (type : SchemaType) :
    extendedBy (Loads.named name (extension :: rest)) type =
      extendedBy (Loads.named name rest) (extendedFor extension name type) := by
  rw [Loads.named_cons, extendedFor]
  by_cases hSame : name = extension.2.name <;> simp [hSame, extendedBy]

theorem extendsAll_named_cons_iff (extension : Loaded TypeDecl) (rest : List (Loaded TypeDecl))
    (name : String) (type : SchemaType) :
    ExtendsAll (Loads.named name (extension :: rest)) type ↔
      (name = extension.2.name → Extends extension.2.body type) ∧
        ExtendsAll (Loads.named name rest) (extendedFor extension name type) := by
  rw [Loads.named_cons, extendedFor]
  by_cases hSame : name = extension.2.name <;> simp [hSame, ExtendsAll]

theorem extend_eq_ok_iff {types : OrderedMap SchemaType} (hKeys : types.keys.Nodup)
    (extension : Loaded TypeDecl) (next : OrderedMap SchemaType) :
    extend types extension = .ok next ↔
      (extension.2.name ∈ types.keys ∧ ∀ entry ∈ types.entries, entry.1 = extension.2.name →
        Extends extension.2.body entry.2) ∧
      next = types.mapWithKey (extendedFor extension) := by
  unfold extend
  dsimp only
  cases hFound : types.get? extension.2.name with
  | none =>
      rw [OrderedMap.get?_eq_none_iff] at hFound
      simp [hFound]
  | some type =>
      have hOnly : (∀ entry ∈ types.entries, entry.1 = extension.2.name →
          Extends extension.2.body entry.2) ↔ Extends extension.2.body type := by
        constructor
        · exact fun h => h _ (OrderedMap.mem_entries_of_get? hFound) rfl
        · rintro h ⟨name, other⟩ hEntry rfl
          rw [OrderedMap.get?_of_mem_entries hKeys hEntry, Option.some_inj] at hFound
          rwa [← hFound] at h
      have hReplace := OrderedMap.replace_eq_mapWithKey hKeys hFound
        (extended extension.1 extension.2)
      rw [hOnly, and_iff_right (OrderedMap.mem_keys_of_get? hFound)]
      refine (Outcome.map_eq_ok_iff_of (extendType_eq_ok_iff _ _) _ next).trans ?_
      rw [hReplace]
      rfl

/-- Extensions find their types, and each type takes those of its name in their order. -/
theorem foldlM_extend_eq_ok_iff (extensions : List (Loaded TypeDecl))
    {types : OrderedMap SchemaType} (hKeys : types.keys.Nodup) (next : OrderedMap SchemaType) :
    extensions.foldlM extend types = .ok next ↔
      ((∀ extension ∈ extensions, extension.2.name ∈ types.keys) ∧
        ∀ entry ∈ types.entries, ExtendsAll (Loads.named entry.1 extensions) entry.2) ∧
      next = types.mapWithKey fun name => extendedBy (Loads.named name extensions) := by
  induction extensions generalizing types with
  | nil =>
      simp [Loads.named, ExtendsAll, extendedBy, OrderedMap.mapWithKey]
  | cons extension rest ih =>
      have hNext : (types.mapWithKey (extendedFor extension)).mapWithKey
          (fun name => extendedBy (Loads.named name rest)) =
          types.mapWithKey fun name => extendedBy (Loads.named name (extension :: rest)) := by
        rw [OrderedMap.mapWithKey_mapWithKey]
        simp only [← extendedBy_named_cons]
      rw [List.foldlM_cons, Outcome.bind_eq_ok_iff]
      simp only [extend_eq_ok_iff hKeys, extendsAll_named_cons_iff]
      constructor
      · rintro ⟨_, ⟨⟨hKnown, hFirst⟩, rfl⟩, hRest⟩
        obtain ⟨⟨hTargets, hAll⟩, rfl⟩ := (ih (by rwa [OrderedMap.keys_mapWithKey])).mp hRest
        rw [OrderedMap.keys_mapWithKey] at hTargets
        rw [OrderedMap.mapWithKey, List.forall_mem_map] at hAll
        refine ⟨⟨List.forall_mem_cons.mpr ⟨hKnown, hTargets⟩, ?_⟩, hNext⟩
        exact fun entry hEntry => ⟨hFirst entry hEntry, hAll entry hEntry⟩
      · rintro ⟨⟨hTargets, hAll⟩, rfl⟩
        rw [List.forall_mem_cons] at hTargets
        refine ⟨_, ⟨⟨hTargets.1, fun entry hEntry => (hAll entry hEntry).1⟩, rfl⟩,
          (ih (by rwa [OrderedMap.keys_mapWithKey])).mpr ⟨⟨?_, ?_⟩, hNext.symm⟩⟩
        · rw [OrderedMap.keys_mapWithKey]
          exact hTargets.2
        · rw [OrderedMap.mapWithKey, List.forall_mem_map]
          exact fun entry hEntry => (hAll entry hEntry).2

/-- The types of accepted definitions and extensions, behind the built-in ones. -/
def settledTypes (definitions extensions : List (Loaded TypeDecl)) : OrderedMap SchemaType :=
  ⟨initial.types.entries ++ definitions.map fun definition =>
    (definition.2.name, assembled definition (Loads.named definition.2.name extensions))⟩

/-- A type is built in or assembled from its parts. -/
theorem mem_settledTypes_iff (definitions extensions : List (Loaded TypeDecl))
    (entry : String × SchemaType) :
    entry ∈ (settledTypes definitions extensions).entries ↔
      entry ∈ initial.types.entries ∨ ∃ definition ∈ definitions, (definition.2.name,
        assembled definition (Loads.named definition.2.name extensions)) = entry := by
  rw [settledTypes, List.mem_append, List.mem_map]

/-- Definitions and extensions that are accepted. -/
structure Acceptable (definitions extensions : List (Loaded TypeDecl)) : Prop where
  names : Admits initial.types.keys (definitions.map (·.2.name))
  targets : ∀ extension ∈ extensions, extension.2.name ∈ definitions.map (·.2.name)
  assembles : ∀ definition ∈ definitions,
    Assembles definition (Loads.named definition.2.name extensions)

theorem Acceptable.definable {definitions extensions : List (Loaded TypeDecl)}
    (h : Acceptable definitions extensions) : Definable initial.types.keys definitions :=
  ⟨h.names, fun definition hDefinition =>
    ((assembles_iff _ _).mp (h.assembles definition hDefinition)).1⟩

/-- Built-in types take no extension. -/
theorem extendsAll_builtIn_iff {entry : String × SchemaType}
    (hEntry : entry ∈ initial.types.entries) (extensions : List (Loaded TypeDecl)) :
    ExtendsAll extensions entry.2 ↔ extensions = [] := by
  have hNever : ∀ body, ¬ Extends body entry.2 := by
    intro body
    simp only [initial, List.mem_cons, List.not_mem_nil, or_false] at hEntry
    rcases hEntry with rfl | rfl | rfl | rfl | rfl <;> exact id
  cases extensions with
  | nil => simp [ExtendsAll]
  | cons extension rest => simp [ExtendsAll, hNever]

theorem Acceptable.named_builtIn {definitions extensions : List (Loaded TypeDecl)}
    (h : Acceptable definitions extensions) {entry : String × SchemaType}
    (hEntry : entry ∈ initial.types.entries) : Loads.named entry.1 extensions = [] := by
  rw [Loads.named_eq_nil_iff]
  intro extension hExtension hName
  refine h.names.fresh (List.mem_map.mpr ⟨entry, hEntry, rfl⟩) ?_
  rw [← hName]
  exact h.targets extension hExtension

/-- Each type is assembled from its parts, and the built-in ones stay as they are. -/
theorem Acceptable.mapWithKey_eq {definitions extensions : List (Loaded TypeDecl)}
    (h : Acceptable definitions extensions) :
    (⟨initial.types.entries ++ definitions.map typeEntry⟩ : OrderedMap SchemaType).mapWithKey
      (fun name => extendedBy (Loads.named name extensions)) =
        settledTypes definitions extensions := by
  rw [OrderedMap.mapWithKey, settledTypes, List.map_append, List.map_map]
  congr 2
  · refine (List.map_congr_left ?_).trans (List.map_id _)
    intro entry hEntry
    rw [h.named_builtIn hEntry]
    rfl
  · apply List.map_congr_left
    intro definition hDefinition
    exact congrArg (Prod.mk _) (extendedBy_written (h.assembles definition hDefinition))

/-- After the definitions come the extensions. -/
theorem extend_definitions_eq_ok_iff {definitions : List (Loaded TypeDecl)}
    (hDefinable : Definable initial.types.keys definitions)
    (extensions : List (Loaded TypeDecl)) (next : OrderedMap SchemaType) :
    extensions.foldlM extend ⟨initial.types.entries ++ definitions.map typeEntry⟩ = .ok next ↔
      Acceptable definitions extensions ∧ next = settledTypes definitions extensions := by
  have hKeys : (⟨initial.types.entries ++ definitions.map typeEntry⟩ :
      OrderedMap SchemaType).keys = initial.types.keys ++ definitions.map (·.2.name) := by
    simp [OrderedMap.keys, typeEntry]
  have hDistinct : (initial.types.keys ++ definitions.map (·.2.name)).Nodup :=
    List.nodup_append'.mpr ⟨by decide, hDefinable.names.distinct, hDefinable.names.fresh⟩
  rw [foldlM_extend_eq_ok_iff extensions (by rwa [hKeys]), hKeys, List.forall_mem_append,
    List.forall_mem_map]
  constructor
  · rintro ⟨⟨hTargets, hBuiltIn, hDefined⟩, rfl⟩
    have hAcceptable : Acceptable definitions extensions := by
      refine ⟨hDefinable.names, ?_, ?_⟩
      · intro extension hExtension
        rcases List.mem_append.mp (hTargets extension hExtension) with hKnown | hKnown
        · obtain ⟨entry, hEntry, hName⟩ := List.mem_map.mp hKnown
          have hNone := (extendsAll_builtIn_iff hEntry _).mp (hBuiltIn entry hEntry)
          exact absurd hName.symm ((Loads.named_eq_nil_iff _ _).mp hNone extension hExtension)
        · exact hKnown
      · intro definition hDefinition
        exact (assembles_iff _ _).mpr
          ⟨hDefinable.bodies definition hDefinition, hDefined definition hDefinition⟩
    exact ⟨hAcceptable, hAcceptable.mapWithKey_eq⟩
  · rintro ⟨hAcceptable, rfl⟩
    refine ⟨⟨?_, ?_, ?_⟩, hAcceptable.mapWithKey_eq.symm⟩
    · intro extension hExtension
      exact List.mem_append_right _ (hAcceptable.targets extension hExtension)
    · intro entry hEntry
      rw [hAcceptable.named_builtIn hEntry]
      trivial
    · intro definition hDefinition
      exact ((assembles_iff _ _).mp (hAcceptable.assembles definition hDefinition)).2

end Draft

/-- A schema is built exactly if its definitions and extensions are accepted, its schema blocks
agree, and the checks of the settled types pass. -/
theorem Schema.ofItems_eq_ok_iff (items : List (Loaded SchemaItem)) (schema : Schema) :
    Schema.ofItems items = .ok schema ↔
      Draft.Acceptable (Loads.definitions items) (Loads.extensions items) ∧
        ∃ roots, (Loads.schemaBlocks items).foldlM Roots.take {} = .ok roots ∧
          Draft.finish roots (Draft.settledTypes (Loads.definitions items)
            (Loads.extensions items)) = .ok schema := by
  rw [ofItems, Outcome.bind_eq_ok_iff]
  simp only [Draft.takeAll_eq_ok_iff, Draft.build_eq_finish, Outcome.bind_eq_ok_iff]
  constructor
  · rintro ⟨_, ⟨hDefinable, roots, hRoots, rfl⟩, types, hTypes, hFinish⟩
    obtain ⟨hAcceptable, rfl⟩ := (Draft.extend_definitions_eq_ok_iff hDefinable _ _).mp hTypes
    exact ⟨hAcceptable, roots, hRoots, hFinish⟩
  · rintro ⟨hAcceptable, roots, hRoots, hFinish⟩
    exact ⟨_, ⟨hAcceptable.definable, roots, hRoots, rfl⟩, _,
      (Draft.extend_definitions_eq_ok_iff hAcceptable.definable _ _).mpr ⟨hAcceptable, rfl⟩,
      hFinish⟩

/-- What is left to do once the definitions and extensions are accepted. -/
def Schema.settle (items : List (Loaded SchemaItem)) : Except SchemaError Schema :=
  (Loads.schemaBlocks items).foldlM Roots.take {} >>=
    (Draft.finish · (Draft.settledTypes (Loads.definitions items) (Loads.extensions items)))

open Classical in
theorem Schema.ofItems_toOption (items : List (Loaded SchemaItem)) :
    (Schema.ofItems items).toOption =
      if Draft.Acceptable (Loads.definitions items) (Loads.extensions items) then
        (Schema.settle items).toOption
      else none := by
  ext schema
  rw [Outcome.toOption_eq_some_iff, ofItems_eq_ok_iff]
  split
  · rename_i hAcceptable
    rw [Outcome.toOption_eq_some_iff, settle, Outcome.bind_eq_ok_iff]
    simp [hAcceptable]
  · rename_i hRefused
    simp [hRefused]

end ResponseModels
