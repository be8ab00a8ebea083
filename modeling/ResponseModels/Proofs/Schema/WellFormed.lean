import ResponseModels.Schema.Draft
import ResponseModels.Proofs.Data.Association
import ResponseModels.Proofs.Data.Outcome

/-! Built schemas are well formed. Types, fields and union members stand under their own names,
whatever was loaded and extended in whatever order, and what a type implements or has as a member
is defined as an interface or an object. -/
namespace ResponseModels

open GraphQL

/-- The parts of a type stand under their own names. -/
def SchemaType.Keyed : SchemaType → Prop
  | .interface type => type.fields.Keyed Field.name
  | .object type => type.fields.Keyed Field.name
  | .union type => type.members.Keyed TypeRef.name
  | _ => True

/-- A field that can be selected is the one asked for. -/
theorem SchemaType.Keyed.name_of_selectable? {type : SchemaType} (h : type.Keyed)
    {fieldName : String} {field : Field} (hField : type.selectable? fieldName = some field) :
    field.name = fieldName := by
  cases type with
  | interface type => exact OrderedMap.Keyed.name_of_get? h hField
  | object type => exact OrderedMap.Keyed.name_of_get? h hField
  | union type =>
      simp only [SchemaType.selectable?] at hField
      split at hField
      · rename_i hName
        cases hField
        exact hName.symm
      · cases hField
  | bool => cases hField
  | enum type => cases hField
  | float => cases hField
  | id => cases hField
  | input type => cases hField
  | int => cases hField
  | scalar type => cases hField
  | string => cases hField

/-- Types stand under their own names, and so do their parts. -/
structure TypesKeyed (types : OrderedMap SchemaType) : Prop where
  keyed : types.Keyed SchemaType.name
  parts : ∀ type ∈ types.values, type.Keyed

namespace Draft

/-- Drafts that loads bring about, one after the other. A load is given by what its text holds;
how texts without a file are counted plays no part. -/
inductive Drafted : Draft → Prop where
  | initial : Drafted Draft.initial
  | load {draft next : Draft} (prior : Drafted draft) (count : UInt16) (file : Option SourcePath)
      (items : List SchemaItem)
      (loaded : { draft with unnamedLoads := count }.addAll file items = .ok next) : Drafted next

theorem Drafted.ofText {draft next : Draft} (h : Drafted draft) {file : Option SourcePath}
    {text : String} (loaded : draft.load file text = .ok next) : Drafted next := by
  unfold Draft.load at loaded
  cases hText : readTypeSystem? text with
  | none =>
      rw [hText] at loaded
      cases loaded
  | some items =>
      rw [hText] at loaded
      exact h.load _ file items loaded

theorem Drafted.ofFile {draft next : Draft} (h : Drafted draft) {files : Files}
    {path : SourcePath} (loaded : draft.loadFile files path = .ok next) : Drafted next := by
  unfold Draft.loadFile at loaded
  cases hRead : files.read path with
  | error failure =>
      rw [hRead] at loaded
      cases loaded
  | ok text =>
      rw [hRead] at loaded
      exact h.ofText loaded

theorem keyed_addField {file : Option SourcePath} {typeName : String}
    {fields next : OrderedMap Field} {decl : FieldDecl}
    (hFields : fields.Keyed Field.name ∧ "__typename" ∉ fields.keys)
    (h : addField file typeName fields decl = .ok next) :
    next.Keyed Field.name ∧ "__typename" ∉ next.keys := by
  unfold addField at h
  split at h
  · cases h
  · rename_i hReserved
    split at h
    · cases h
    · cases h
      refine ⟨hFields.1.insert rfl, ?_⟩
      rw [OrderedMap.keys_insert]
      split
      · exact hFields.2
      · rw [List.mem_append, List.mem_singleton, not_or]
        refine ⟨hFields.2, ?_⟩
        intro hSame
        rw [← hSame] at hReserved
        exact hReserved (by decide +kernel)

theorem keyed_declaredFields {file : Option SourcePath} {typeName : String}
    {decls : List FieldDecl} {fields : OrderedMap Field}
    (h : declaredFields file typeName decls = .ok fields) :
    fields.Keyed Field.name ∧ "__typename" ∉ fields.keys := by
  refine Outcome.foldlM_keeps (P := fun fields : OrderedMap Field =>
    fields.Keyed Field.name ∧ "__typename" ∉ fields.keys) ?_ ?_ h
  · intro fields decl next _ hFields hNext
    exact keyed_addField hFields hNext
  · exact ⟨.empty _, List.not_mem_nil⟩

theorem keyed_fieldedTypeOf {file : Option SourcePath} {decl : TypeDecl}
    {interfaces : List String} {fields : List FieldDecl} {type : FieldedType}
    (h : fieldedTypeOf file decl interfaces fields = .ok type) :
    type.name = decl.name ∧ type.fields.Keyed Field.name := by
  unfold fieldedTypeOf at h
  rw [Outcome.bind_eq_ok_iff] at h
  obtain ⟨declared, hDeclared, h⟩ := h
  cases h
  obtain ⟨hKeyed, hAbsent⟩ := keyed_declaredFields hDeclared
  refine ⟨rfl, List.nodup_cons.mpr ⟨hAbsent, hKeyed.nodup⟩, ?_⟩
  intro entry hEntry
  rcases List.mem_cons.mp hEntry with rfl | hEntry
  · rfl
  · exact hKeyed.name_eq entry hEntry

theorem keyed_addMembers {unionName : String} {location : Location} {members : List String}
    {start all : OrderedMap TypeRef} (hStart : start.Keyed TypeRef.name)
    (h : members.foldlM (addMember unionName location) start = .ok all) :
    all.Keyed TypeRef.name := by
  refine Outcome.foldlM_keeps (P := fun all : OrderedMap TypeRef => all.Keyed TypeRef.name)
    ?_ hStart h
  intro all member next _ hAll hNext
  unfold addMember at hNext
  split at hNext
  · cases hNext
  · cases hNext
    exact hAll.insert rfl

/-- The type of a definition has the definition's name. -/
theorem keyed_typeOf {file : Option SourcePath} {decl : TypeDecl} {type : SchemaType}
    (h : typeOf file decl = .ok type) : type.name = decl.name ∧ type.Keyed := by
  unfold typeOf at h
  cases hBody : decl.body with
  | scalar =>
      simp only [hBody] at h
      cases h
      exact ⟨rfl, trivial⟩
  | object interfaces fields =>
      simp only [hBody, Outcome.bind_eq_ok_iff, Outcome.pure_eq_ok_iff] at h
      obtain ⟨fielded, hFielded, rfl⟩ := h
      exact keyed_fieldedTypeOf hFielded
  | interface interfaces fields =>
      simp only [hBody, Outcome.bind_eq_ok_iff, Outcome.pure_eq_ok_iff] at h
      obtain ⟨fielded, hFielded, rfl⟩ := h
      exact keyed_fieldedTypeOf hFielded
  | union members =>
      simp only [hBody, Outcome.bind_eq_ok_iff, Outcome.pure_eq_ok_iff] at h
      obtain ⟨all, hAll, rfl⟩ := h
      exact ⟨rfl, keyed_addMembers (.empty _) hAll⟩
  | enum values =>
      simp only [hBody] at h
      cases h
      exact ⟨rfl, trivial⟩
  | input fields =>
      simp only [hBody] at h
      cases h
      exact ⟨rfl, trivial⟩

theorem keyed_initial : TypesKeyed Draft.initial.types := by
  refine ⟨⟨by decide, by decide⟩, ?_⟩
  intro type hType
  simp only [Draft.initial, OrderedMap.values, List.map_cons, List.map_nil, List.mem_cons,
    List.not_mem_nil, or_false] at hType
  rcases hType with rfl | rfl | rfl | rfl | rfl <;> trivial

/-- A type is defined under its own name. -/
theorem keyed_define {types : OrderedMap SchemaType} {file : Option SourcePath} {decl : TypeDecl}
    {type : SchemaType} (hTypes : TypesKeyed types) (h : typeOf file decl = .ok type) :
    TypesKeyed (types.insert decl.name type) := by
  obtain ⟨hName, hParts⟩ := keyed_typeOf h
  refine ⟨hTypes.keyed.insert hName, ?_⟩
  intro other hOther
  rcases OrderedMap.mem_values_insert hOther with rfl | hOld
  · exact hParts
  · exact hTypes.parts other hOld

theorem keyed_extendFielded {file : Option SourcePath} {location : Location}
    {type next : FieldedType} {interfaces : List String} {fields : List FieldDecl}
    (hType : type.fields.Keyed Field.name)
    (h : extendFielded file location type interfaces fields = .ok next) :
    next.name = type.name ∧ next.fields.Keyed Field.name := by
  unfold extendFielded at h
  simp only [Outcome.bind_eq_ok_iff, Outcome.pure_eq_ok_iff] at h
  obtain ⟨declared, hDeclared, all, hAll, rfl⟩ := h
  refine ⟨rfl, ?_⟩
  refine Outcome.foldlM_keeps (P := fun all : OrderedMap Field => all.Keyed Field.name)
    ?_ hType hAll
  intro all entry next hEntry hKeyed hNext
  unfold includeField at hNext
  split at hNext
  · cases hNext
  · cases hNext
    exact hKeyed.insert ((keyed_declaredFields hDeclared).1.name_eq entry hEntry)

theorem keyed_insertMembers {location : Location} {members : List String}
    {start : OrderedMap TypeRef} (hStart : start.Keyed TypeRef.name) :
    (members.foldl (fun m member => m.insert member ⟨member, location⟩) start).Keyed
      TypeRef.name := by
  induction members generalizing start with
  | nil => exact hStart
  | cons member rest ih => exact ih (hStart.insert rfl)

/-- An extension leaves the name of a type alone and adds its items under their own names. -/
theorem keyed_extendType {file : Option SourcePath} {decl : TypeDecl} {type next : SchemaType}
    (hType : type.Keyed) (h : extendType file decl type = .ok next) :
    next.name = type.name ∧ next.Keyed := by
  unfold extendType at h
  simp only at h
  split at h
  · cases h
    exact ⟨rfl, trivial⟩
  · rw [Outcome.bind_eq_ok_iff] at h
    obtain ⟨fielded, hFielded, h⟩ := h
    cases h
    exact keyed_extendFielded hType hFielded
  · rw [Outcome.bind_eq_ok_iff] at h
    obtain ⟨fielded, hFielded, h⟩ := h
    cases h
    exact keyed_extendFielded hType hFielded
  · cases h
    exact ⟨rfl, trivial⟩
  · cases h
    exact ⟨rfl, keyed_insertMembers hType⟩
  · cases h
    exact ⟨rfl, trivial⟩
  · cases h

theorem keyed_extend {types : OrderedMap SchemaType} {file : Option SourcePath} {decl : TypeDecl}
    {type extended : SchemaType} (hTypes : TypesKeyed types)
    (hFound : types.get? decl.name = some type) (h : extendType file decl type = .ok extended) :
    TypesKeyed (types.replace decl.name extended) := by
  obtain ⟨hName, hParts⟩ :=
    keyed_extendType (hTypes.parts type (OrderedMap.mem_values_of_get? hFound)) h
  have hNamed : extended.name = decl.name := hName.trans (hTypes.keyed.name_of_get? hFound)
  refine ⟨hTypes.keyed.replace hNamed, ?_⟩
  intro other hOther
  rcases OrderedMap.mem_values_replace hOther with rfl | hOld
  · exact hParts
  · exact hTypes.parts other hOld

/-- An item that is taken in defines a type, or leaves the types alone. -/
theorem types_add {draft next : Draft} {file : Option SourcePath} {item : SchemaItem}
    (h : add file draft item = .ok next) :
    next.types = draft.types ∨ ∃ decl type, typeOf file decl = .ok type ∧
      next.types = draft.types.insert decl.name type := by
  cases item with
  | roots decl =>
      unfold add setRoots at h
      simp only [Outcome.bind_eq_ok_iff, Outcome.pure_eq_ok_iff] at h
      obtain ⟨query, _, mutation, _, subscription, _, rfl⟩ := h
      exact .inl rfl
  | define decl =>
      unfold add define at h
      rw [Outcome.bind_eq_ok_iff] at h
      obtain ⟨type, hType, h⟩ := h
      simp only at h
      split at h
      · cases h
      · split at h
        · cases h
        · cases h
          exact .inr ⟨decl, type, hType, rfl⟩
  | extend decl =>
      cases h
      exact .inl rfl
  | directive =>
      cases h
      exact .inl rfl

theorem extend_eq_ok {types next : OrderedMap SchemaType}
    {extension : Option SourcePath × TypeDecl} (h : extend types extension = .ok next) :
    ∃ type extended, types.get? extension.2.name = some type ∧
      extendType extension.1 extension.2 type = .ok extended ∧
      next = types.replace extension.2.name extended := by
  unfold extend at h
  simp only at h
  split at h
  · cases h
  · rename_i type hFound
    rw [Outcome.bind_eq_ok_iff] at h
    obtain ⟨extended, hExtended, h⟩ := h
    cases h
    exact ⟨type, extended, hFound, hExtended, rfl⟩

end Draft

/-- What every schema that is built from a draft holds. -/
structure Schema.WellFormed (schema : Schema) : Prop where
  keyed : TypesKeyed schema.types
  /-- What an object or interface implements is defined as an interface. -/
  interfaces : ∀ type ∈ schema.types.values, ∀ fielded : FieldedType,
    type.object? = some fielded ∨ type.interface? = some fielded →
      ∀ ref ∈ fielded.interfaces, ∃ interface, schema.interface? ref.name = some interface
  /-- The members of a union are defined as objects. -/
  members : ∀ type ∈ schema.types.values, ∀ union, type.union? = some union →
    ∀ ref ∈ union.members.values, ∃ object, schema.object? ref.name = some object

/-- A schema that loads bring about. -/
def Schema.Built (schema : Schema) : Prop :=
  ∃ draft : Draft, draft.Drafted ∧ draft.build = .ok schema

namespace Draft

theorem checkInterface_eq_ok {types : OrderedMap SchemaType} {typeName : String} {ref : TypeRef}
    (h : checkInterface types typeName ref = .ok ()) :
    ∃ interface, types.get? ref.name = some (.interface interface) := by
  unfold checkInterface at h
  rw [Outcome.bind_eq_ok_iff] at h
  obtain ⟨_, _, h⟩ := h
  split at h
  · rename_i interface hFound
    exact ⟨interface, hFound⟩
  · cases h

theorem checkMember_eq_ok {types : OrderedMap SchemaType} {unionName : String} {ref : TypeRef}
    (h : checkMember types unionName ref = .ok ()) :
    ∃ object, types.get? ref.name = some (.object object) := by
  unfold checkMember at h
  rw [Outcome.bind_eq_ok_iff] at h
  obtain ⟨_, _, h⟩ := h
  split at h
  · rename_i object hFound
    exact ⟨object, hFound⟩
  · cases h

theorem checkFielded_eq_ok {types : OrderedMap SchemaType} {type : FieldedType}
    (h : checkFielded types type = .ok ()) {ref : TypeRef} (hRef : ref ∈ type.interfaces) :
    ∃ interface, types.get? ref.name = some (.interface interface) := by
  unfold checkFielded at h
  rw [Outcome.bind_eq_ok_iff] at h
  obtain ⟨_, _, h⟩ := h
  exact checkInterface_eq_ok (Outcome.forM_eq_ok h hRef)

theorem build_eq_ok {draft : Draft} {schema : Schema} (h : draft.build = .ok schema) :
    draft.extensions.foldlM extend draft.types = .ok schema.types ∧
      schema.types.values.forM (checkType schema.types) = .ok () := by
  unfold build at h
  simp only [Outcome.bind_eq_ok_iff] at h
  obtain ⟨types, hTypes, _, hChecked, root, _, h⟩ := h
  cases root with
  | none => cases h
  | some query =>
      simp only [Outcome.bind_eq_ok_iff, Outcome.pure_eq_ok_iff] at h
      obtain ⟨mutation, _, subscription, _, rfl⟩ := h
      exact ⟨hTypes, hChecked⟩

end Draft

/-- What holds of the built-in types, and is kept when a type is defined and when one is extended,
holds of the types of every built schema. -/
theorem Schema.Built.types_induct {schema : Schema} {P : OrderedMap SchemaType → Prop}
    (h : schema.Built) (hInitial : P Draft.initial.types)
    (hDefine : ∀ types file decl type, P types → Draft.typeOf file decl = .ok type →
      P (types.insert decl.name type))
    (hExtend : ∀ types file decl type extended, P types → types.get? decl.name = some type →
      Draft.extendType file decl type = .ok extended → P (types.replace decl.name extended)) :
    P schema.types := by
  obtain ⟨draft, hDrafted, hBuild⟩ := h
  have hDraft : P draft.types := by
    clear hBuild
    induction hDrafted with
    | initial => exact hInitial
    | load prior count file items loaded ih =>
        unfold Draft.addAll at loaded
        refine Outcome.foldlM_keeps (P := fun draft : Draft => P draft.types) ?_ ?_ loaded
        · intro draft item next _ hTypes hNext
          rcases Draft.types_add hNext with hSame | ⟨decl, type, hType, hSame⟩
          · rwa [hSame]
          · rw [hSame]
            exact hDefine _ file decl type hTypes hType
        · exact ih
  refine Outcome.foldlM_keeps (P := P) ?_ hDraft (Draft.build_eq_ok hBuild).1
  intro types extension next _ hTypes hNext
  obtain ⟨type, extended, hFound, hExtended, rfl⟩ := Draft.extend_eq_ok hNext
  exact hExtend types _ _ type extended hTypes hFound hExtended

theorem Schema.Built.wellFormed {schema : Schema} (h : schema.Built) : schema.WellFormed := by
  have hKeyed : TypesKeyed schema.types :=
    h.types_induct Draft.keyed_initial (fun _ _ _ _ => Draft.keyed_define)
      (fun _ _ _ _ _ => Draft.keyed_extend)
  obtain ⟨draft, _, hBuild⟩ := h
  obtain ⟨_, hChecked⟩ := Draft.build_eq_ok hBuild
  refine ⟨hKeyed, ?_, ?_⟩
  · intro type hType fielded hFielded ref hRef
    have hCheck := Outcome.forM_eq_ok hChecked hType
    have hOk : Draft.checkFielded schema.types fielded = .ok () := by
      cases type <;>
        simp_all [SchemaType.object?, SchemaType.interface?, Draft.checkType]
    obtain ⟨interface, hFound⟩ := Draft.checkFielded_eq_ok hOk hRef
    exact ⟨interface, by simp [Schema.interface?, Schema.type?, hFound, SchemaType.interface?]⟩
  · intro type hType union hUnion ref hRef
    have hCheck := Outcome.forM_eq_ok hChecked hType
    cases type with
    | union found =>
        cases hUnion
        obtain ⟨object, hFound⟩ := Draft.checkMember_eq_ok (Outcome.forM_eq_ok hCheck hRef)
        exact ⟨object, by simp [Schema.object?, Schema.type?, hFound, SchemaType.object?]⟩
    | _ => cases hUnion

end ResponseModels
