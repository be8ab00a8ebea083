import ResponseModels.Proofs.Schema.Assembly
import ResponseModels.Proofs.Schema.References

/-! Schemas apart from the places where their parts were written. Places are carried along and
shown in messages, and nothing is decided by them: items that are moved to other places build as
they did, to the same schema apart from places. -/
namespace ResponseModels

open GraphQL

/-- The location without its place in a file. -/
def Location.unplaced : Location → Location
  | .schemaFile _ => .schema
  | location => location

theorem Location.ofSchema_none (position : Position) : Location.ofSchema none position = .schema :=
  rfl

theorem Location.unplaced_ofSchema (file : Option SourcePath) (position : Position) :
    (Location.ofSchema file position).unplaced = .schema := by
  cases file <;> rfl

def TypeRef.unplaced (ref : TypeRef) : TypeRef := { ref with location := ref.location.unplaced }

namespace Annotation

def unplaced : Annotation → Annotation
  | .list item nullable location => .list item.unplaced nullable location.unplaced
  | .named nullable type => .named nullable type.unplaced

theorem unplaced_ofTypeExpr (location : Location) (type : TypeExpr) :
    (ofTypeExpr location type).unplaced = ofTypeExpr location.unplaced type := by
  fun_induction ofTypeExpr location type with
  | case1 name => rfl
  | case2 item ih => simp [ofTypeExpr, unplaced, ih]
  | case3 name => rfl
  | case4 item ih => simp [ofTypeExpr, unplaced, ih]
  | case5 inner ih => simp [ofTypeExpr, ih]

theorem name_innermost_unplaced (declared : Annotation) :
    declared.unplaced.innermost.name = declared.innermost.name := by
  induction declared with
  | list item nullable location ih => exact ih
  | named nullable type => rfl

end Annotation

def Field.unplaced (field : Field) : Field :=
  { field with
    location := field.location.unplaced
    parent := field.parent.unplaced
    annotation := field.annotation.unplaced }

def FieldedType.unplaced (type : FieldedType) : FieldedType :=
  { type with
    location := type.location.unplaced
    fields := type.fields.mapValues Field.unplaced
    interfaces := type.interfaces.map TypeRef.unplaced }

def SchemaType.unplaced : SchemaType → SchemaType
  | .enum type => .enum { type with location := type.location.unplaced }
  | .input type => .input { type with
    location := type.location.unplaced
    fields := type.fields.mapValues Annotation.unplaced }
  | .interface type => .interface type.unplaced
  | .object type => .object type.unplaced
  | .scalar type => .scalar { type with location := type.location.unplaced }
  | .union type => .union { type with
    location := type.location.unplaced
    members := type.members.mapValues TypeRef.unplaced }
  | type => type

/-- A schema apart from the places where its parts were written. -/
def Schema.unplaced (schema : Schema) : Schema where
  mutation := schema.mutation.map TypeRef.unplaced
  query := schema.query.unplaced
  subscription := schema.subscription.map TypeRef.unplaced
  types := schema.types.mapValues SchemaType.unplaced

def Roots.unplaced (roots : Roots) : Roots where
  mutation := roots.mutation.map TypeRef.unplaced
  query := roots.query.map TypeRef.unplaced
  subscription := roots.subscription.map TypeRef.unplaced

namespace GraphQL

def FieldDecl.unplaced (decl : FieldDecl) : FieldDecl := { decl with position := .start }

def InputDecl.unplaced (decl : InputDecl) : InputDecl := { decl with position := .start }

def TypeBody.unplaced : TypeBody → TypeBody
  | .object interfaces fields => .object interfaces (fields.map FieldDecl.unplaced)
  | .interface interfaces fields => .interface interfaces (fields.map FieldDecl.unplaced)
  | .input fields => .input (fields.map InputDecl.unplaced)
  | body => body

def TypeDecl.unplaced (decl : TypeDecl) : TypeDecl :=
  { decl with position := .start, body := decl.body.unplaced }

def RootsDecl.unplaced (decl : RootsDecl) : RootsDecl := { decl with position := .start }

/-- What an item says apart from where it stands. -/
def SchemaItem.unplaced : SchemaItem → SchemaItem
  | .roots decl => .roots decl.unplaced
  | .define decl => .define decl.unplaced
  | .extend decl => .extend decl.unplaced
  | .directive => .directive

namespace TypeBody

@[simp] theorem unplaced_object (interfaces : List String) (fields : List FieldDecl) :
    (object interfaces fields).unplaced = object interfaces (fields.map FieldDecl.unplaced) :=
  rfl

@[simp] theorem unplaced_interface (interfaces : List String) (fields : List FieldDecl) :
    (interface interfaces fields).unplaced =
      interface interfaces (fields.map FieldDecl.unplaced) :=
  rfl

@[simp] theorem unplaced_input (fields : List InputDecl) :
    (input fields).unplaced = input (fields.map InputDecl.unplaced) :=
  rfl

@[simp] theorem unplaced_scalar : scalar.unplaced = scalar := rfl

@[simp] theorem unplaced_union (members : List String) :
    (union members).unplaced = union members :=
  rfl

@[simp] theorem unplaced_enum (values : List String) : (enum values).unplaced = enum values := rfl

variable (body : TypeBody)

@[simp] theorem kind_unplaced : body.unplaced.kind = body.kind := by
  cases body <;> rfl

@[simp] theorem interfaces_unplaced : body.unplaced.interfaces = body.interfaces := by
  cases body <;> rfl

@[simp] theorem members_unplaced : body.unplaced.members = body.members := by
  cases body <;> rfl

@[simp] theorem values_unplaced : body.unplaced.values = body.values := by
  cases body <;> rfl

@[simp] theorem fields_unplaced : body.unplaced.fields = body.fields.map FieldDecl.unplaced := by
  cases body <;> rfl

@[simp] theorem inputs_unplaced : body.unplaced.inputs = body.inputs.map InputDecl.unplaced := by
  cases body <;> rfl

end TypeBody

end GraphQL

namespace Loads

/-- The same declaration without a file and without places. -/
def unplacedDecl (decl : Loaded TypeDecl) : Loaded TypeDecl := (none, decl.2.unplaced)

/-- The same item without a file and without places. -/
def unplacedItem (item : Loaded SchemaItem) : Loaded SchemaItem := (none, item.2.unplaced)

theorem definitions_unplaced (items : List (Loaded SchemaItem)) :
    definitions (items.map unplacedItem) = (definitions items).map unplacedDecl := by
  rw [definitions, definitions, List.filterMap_map, List.map_filterMap]
  congr 1
  funext item
  obtain ⟨file, item⟩ := item
  cases item <;> rfl

theorem extensions_unplaced (items : List (Loaded SchemaItem)) :
    extensions (items.map unplacedItem) = (extensions items).map unplacedDecl := by
  rw [extensions, extensions, List.filterMap_map, List.map_filterMap]
  congr 1
  funext item
  obtain ⟨file, item⟩ := item
  cases item <;> rfl

theorem schemaBlocks_unplaced (items : List (Loaded SchemaItem)) :
    schemaBlocks (items.map unplacedItem) =
      (schemaBlocks items).map fun block => (none, block.2.unplaced) := by
  rw [schemaBlocks, schemaBlocks, List.filterMap_map, List.map_filterMap]
  congr 1
  funext item
  obtain ⟨file, item⟩ := item
  cases item <;> rfl

theorem named_unplaced (name : String) (decls : List (Loaded TypeDecl)) :
    named name (decls.map unplacedDecl) = (named name decls).map unplacedDecl := by
  rw [named, named, List.filter_map]
  rfl

end Loads

namespace Draft

open Loads

theorem assembles_unplaced_iff (definition : Loaded TypeDecl)
    (extensions : List (Loaded TypeDecl)) :
    Assembles (unplacedDecl definition) (extensions.map unplacedDecl) ↔
      Assembles definition extensions := by
  have hNames : declaredNames (unplacedDecl definition :: extensions.map unplacedDecl) =
      declaredNames (definition :: extensions) := by
    simp [declaredNames, unplacedDecl, TypeDecl.unplaced, List.flatMap_map, FieldDecl.unplaced,
      Function.comp_def]
  constructor
  · rintro ⟨hKinds, hFields, hMembers⟩
    rw [hNames] at hFields
    rw [List.forall_mem_map] at hKinds
    simp only [unplacedDecl, TypeDecl.unplaced, TypeBody.kind_unplaced,
      TypeBody.members_unplaced] at hKinds hMembers
    exact ⟨hKinds, hFields, hMembers⟩
  · rintro ⟨hKinds, hFields, hMembers⟩
    refine ⟨List.forall_mem_map.mpr ?_, ?_, ?_⟩
    · simpa only [unplacedDecl, TypeDecl.unplaced, TypeBody.kind_unplaced] using hKinds
    · rwa [hNames]
    · simpa only [unplacedDecl, TypeDecl.unplaced, TypeBody.members_unplaced] using hMembers

theorem acceptable_unplaced_iff (definitions extensions : List (Loaded TypeDecl)) :
    Acceptable (definitions.map unplacedDecl) (extensions.map unplacedDecl) ↔
      Acceptable definitions extensions := by
  have hNames : (definitions.map unplacedDecl).map (·.2.name) =
      definitions.map (·.2.name) := by
    rw [List.map_map]
    rfl
  have hAssembles : ∀ definition : Loaded TypeDecl,
      Assembles (unplacedDecl definition)
        (named (unplacedDecl definition).2.name (extensions.map unplacedDecl)) ↔
      Assembles definition (named definition.2.name extensions) := by
    intro definition
    rw [named_unplaced]
    exact assembles_unplaced_iff _ _
  constructor
  · rintro ⟨hAdmits, hTargets, hAll⟩
    rw [hNames] at hAdmits
    rw [List.forall_mem_map, hNames] at hTargets
    rw [List.forall_mem_map] at hAll
    exact ⟨hAdmits, hTargets,
      fun definition h => (hAssembles definition).mp (hAll definition h)⟩
  · rintro ⟨hAdmits, hTargets, hAll⟩
    refine ⟨?_, ?_, List.forall_mem_map.mpr
      fun definition h => (hAssembles definition).mpr (hAll definition h)⟩
    · rwa [hNames]
    · rw [List.forall_mem_map, hNames]
      exact hTargets

section Listed

variable (part : Loaded TypeDecl)

theorem listedFields_unplaced (typeName : String) :
    listedFields typeName (unplacedDecl part) =
      (listedFields typeName part).map (Prod.map id Field.unplaced) := by
  simp only [listedFields, unplacedDecl, TypeDecl.unplaced, TypeBody.fields_unplaced,
    List.map_map]
  apply List.map_congr_left
  intro decl _
  simp [fieldEntry, fieldOf, Field.unplaced, TypeRef.unplaced, FieldDecl.unplaced,
    Location.unplaced_ofSchema, Annotation.unplaced_ofTypeExpr, Location.ofSchema_none]

theorem listedInterfaces_unplaced :
    listedInterfaces (unplacedDecl part) = (listedInterfaces part).map TypeRef.unplaced := by
  simp [listedInterfaces, unplacedDecl, TypeDecl.unplaced, TypeRef.unplaced,
    Location.unplaced_ofSchema, Location.ofSchema_none]

theorem listedMembers_unplaced :
    listedMembers (unplacedDecl part) =
      (listedMembers part).map (Prod.map id TypeRef.unplaced) := by
  simp [listedMembers, unplacedDecl, TypeDecl.unplaced, TypeRef.unplaced, memberEntry,
    Location.unplaced_ofSchema, Location.ofSchema_none]

theorem listedInputs_unplaced :
    listedInputs (unplacedDecl part) =
      (listedInputs part).map (Prod.map id Annotation.unplaced) := by
  simp [listedInputs, unplacedDecl, TypeDecl.unplaced, inputField, InputDecl.unplaced,
    Annotation.unplaced_ofTypeExpr, Location.unplaced_ofSchema, Location.ofSchema_none]

end Listed

theorem flatMap_unplaced {α : Type} {listed : Loaded TypeDecl → List α} {change : α → α}
    (h : ∀ part, listed (unplacedDecl part) = (listed part).map change)
    (definition : Loaded TypeDecl) (extensions : List (Loaded TypeDecl)) :
    (unplacedDecl definition :: extensions.map unplacedDecl).flatMap listed =
      ((definition :: extensions).flatMap listed).map change := by
  simp only [← List.map_cons, List.flatMap_map, List.map_flatMap, h]

theorem assembledFielded_unplaced (definition : Loaded TypeDecl)
    (extensions : List (Loaded TypeDecl)) :
    (assembledFielded definition extensions).unplaced =
      assembledFielded (unplacedDecl definition) (extensions.map unplacedDecl) := by
  have hLocation := Location.unplaced_ofSchema definition.1 definition.2.position
  have hTypename : (Field.typename definition.2.name
      (.ofSchema definition.1 definition.2.position)).unplaced =
        .typename definition.2.name .schema := by
    simp only [Field.typename, Field.unplaced, TypeRef.unplaced, Annotation.unplaced, hLocation]
    rfl
  simp only [assembledFielded, FieldedType.unplaced, FieldedType.mk.injEq]
  refine ⟨hLocation, rfl, ?_, (flatMap_unplaced listedInterfaces_unplaced _ _).symm, rfl⟩
  rw [flatMap_unplaced (listedFields_unplaced · (unplacedDecl definition).2.name),
    OrderedMap.mapValues, OrderedMap.mapEntries, List.map_cons, Prod.map_apply, hTypename]
  rfl

/-- The parts of a type may be moved before it is assembled. -/
theorem assembled_unplaced (definition : Loaded TypeDecl)
    (extensions : List (Loaded TypeDecl)) :
    (assembled definition extensions).unplaced =
      assembled (unplacedDecl definition) (extensions.map unplacedDecl) := by
  have hLocation := Location.unplaced_ofSchema definition.1 definition.2.position
  have hFielded := assembledFielded_unplaced definition extensions
  have hUnplaced : (unplacedDecl definition).2.body = definition.2.body.unplaced := rfl
  unfold assembled
  cases hBody : definition.2.body with
  | scalar =>
      rw [hUnplaced, hBody]
      simp only [SchemaType.unplaced, hLocation]
      rfl
  | object interfaces fields =>
      rw [hUnplaced, hBody]
      exact congrArg SchemaType.object hFielded
  | interface interfaces fields =>
      rw [hUnplaced, hBody]
      exact congrArg SchemaType.interface hFielded
  | union members =>
      rw [hUnplaced, hBody]
      simp only [SchemaType.unplaced, TypeBody.unplaced, hLocation,
        flatMap_unplaced listedMembers_unplaced, OrderedMap.mapValues_ofList]
      rfl
  | enum values =>
      have hValues : (unplacedDecl definition :: extensions.map unplacedDecl).flatMap
          (·.2.body.values) = (definition :: extensions).flatMap (·.2.body.values) := by
        simp [unplacedDecl, TypeDecl.unplaced, List.flatMap_map]
      rw [hUnplaced, hBody]
      simp only [SchemaType.unplaced, TypeBody.unplaced, hLocation, hValues]
      rfl
  | input fields =>
      rw [hUnplaced, hBody]
      simp only [SchemaType.unplaced, TypeBody.unplaced, hLocation,
        flatMap_unplaced listedInputs_unplaced, OrderedMap.mapValues_ofList]
      rfl

theorem settledTypes_unplaced (definitions extensions : List (Loaded TypeDecl)) :
    (settledTypes definitions extensions).mapValues SchemaType.unplaced =
      settledTypes (definitions.map unplacedDecl) (extensions.map unplacedDecl) := by
  rw [settledTypes, settledTypes, OrderedMap.mapValues, OrderedMap.mapEntries, List.map_append,
    List.map_map, List.map_map]
  congr 2
  apply List.map_congr_left
  intro definition _
  simp only [Function.comp_apply, Prod.map_apply, assembled_unplaced, ← named_unplaced]
  rfl

end Draft

namespace SchemaType

variable {types : OrderedMap SchemaType}

theorem exists_interface_unplaced_iff (name : String) :
    (∃ interface, (types.mapValues unplaced).get? name = some (.interface interface)) ↔
      ∃ interface, types.get? name = some (.interface interface) := by
  rw [OrderedMap.get?_mapValues]
  constructor
  · rintro ⟨interface, h⟩
    obtain ⟨type, hFound, hType⟩ := Option.map_eq_some_iff.mp h
    cases type <;> cases hType
    exact ⟨_, hFound⟩
  · rintro ⟨interface, h⟩
    exact ⟨interface.unplaced, by rw [h]; rfl⟩

theorem exists_object_unplaced_iff (name : String) :
    (∃ object, (types.mapValues unplaced).get? name = some (.object object)) ↔
      ∃ object, types.get? name = some (.object object) := by
  rw [OrderedMap.get?_mapValues]
  constructor
  · rintro ⟨object, h⟩
    obtain ⟨type, hFound, hType⟩ := Option.map_eq_some_iff.mp h
    cases type <;> cases hType
    exact ⟨_, hFound⟩
  · rintro ⟨object, h⟩
    exact ⟨object.unplaced, by rw [h]; rfl⟩

theorem grounded_fielded_unplaced_iff (type : FieldedType) :
    type.unplaced.Grounded (types.mapValues unplaced) ↔ type.Grounded types := by
  constructor
  · rintro ⟨hFields, hInterfaces⟩
    simp only [FieldedType.unplaced, OrderedMap.values_mapValues, OrderedMap.keys_mapValues,
      List.forall_mem_map, exists_interface_unplaced_iff] at hFields hInterfaces
    refine ⟨?_, hInterfaces⟩
    intro field hField
    rw [← Annotation.name_innermost_unplaced]
    exact hFields field hField
  · rintro ⟨hFields, hInterfaces⟩
    constructor
    · simp only [FieldedType.unplaced, OrderedMap.values_mapValues, OrderedMap.keys_mapValues,
        List.forall_mem_map, Field.unplaced, Annotation.name_innermost_unplaced]
      exact hFields
    · simp only [FieldedType.unplaced, List.forall_mem_map, exists_interface_unplaced_iff]
      exact hInterfaces

/-- References are by name. -/
theorem grounded_unplaced_iff (type : SchemaType) :
    type.unplaced.Grounded (types.mapValues unplaced) ↔ type.Grounded types := by
  cases type with
  | interface type => exact grounded_fielded_unplaced_iff type
  | object type => exact grounded_fielded_unplaced_iff type
  | union type =>
      simp only [unplaced, Grounded, OrderedMap.values_mapValues, List.forall_mem_map,
        exists_object_unplaced_iff]
      rfl
  | input type =>
      simp only [unplaced, Grounded, OrderedMap.values_mapValues, List.forall_mem_map,
        OrderedMap.keys_mapValues, Annotation.name_innermost_unplaced]
  | _ => exact Iff.rfl

end SchemaType

namespace Draft

open Outcome Loads

theorem setRoot_unplaced (operation : String) (location location' : Location)
    (hLocation : location' = location.unplaced) (known : Option TypeRef) (name : Option String) :
    Alike (Option.map TypeRef.unplaced) (setRoot operation location known name)
      (setRoot operation location' (known.map TypeRef.unplaced) name) := by
  subst hLocation
  cases name with
  | none => rfl
  | some name => cases known <;> rfl

theorem take_unplaced (roots : Roots) (block : Loaded RootsDecl) :
    Alike Roots.unplaced (roots.take block)
      (roots.unplaced.take (none, block.2.unplaced)) := by
  have hLocation : Location.ofSchema none block.2.unplaced.position =
      (Location.ofSchema block.1 block.2.position).unplaced :=
    (Location.unplaced_ofSchema _ _).symm
  unfold Roots.take
  refine (setRoot_unplaced _ _ _ hLocation _ _).bind fun query => ?_
  refine (setRoot_unplaced _ _ _ hLocation _ _).bind fun mutation => ?_
  refine (setRoot_unplaced _ _ _ hLocation _ _).bind fun subscription => ?_
  exact .ok _

theorem resolveRoot_unplaced (types : OrderedMap SchemaType) (kind : OperationKind)
    (known : Option TypeRef) :
    Alike (Option.map TypeRef.unplaced) (resolveRoot types kind known)
      (resolveRoot (types.mapValues SchemaType.unplaced) kind (known.map TypeRef.unplaced)) := by
  cases known with
  | none =>
      unfold resolveRoot
      dsimp only [Option.map_none]
      rw [OrderedMap.get?_mapValues]
      cases types.get? kind.defaultRoot with
      | none => rfl
      | some type => cases type <;> rfl
  | some ref =>
      unfold resolveRoot
      dsimp only [Option.map_some, TypeRef.unplaced]
      rw [OrderedMap.get?_mapValues]
      cases types.get? ref.name with
      | none => rfl
      | some type => cases type <;> rfl

theorem finish_unplaced (roots : Roots) (types : OrderedMap SchemaType) :
    Alike Schema.unplaced (finish roots types)
      (finish roots.unplaced (types.mapValues SchemaType.unplaced)) := by
  have hChecks : types.values.forM (checkType types) = .ok () ↔
      (types.mapValues SchemaType.unplaced).values.forM
        (checkType (types.mapValues SchemaType.unplaced)) = .ok () := by
    simp only [forM_eq_ok_iff, checkType_eq_ok_iff, OrderedMap.values_mapValues,
      List.forall_mem_map, SchemaType.grounded_unplaced_iff]
  unfold finish
  refine (Alike.of_ok_iff hChecks).bind fun _ => ?_
  refine (resolveRoot_unplaced types .query roots.query).bind fun root => ?_
  cases root with
  | none => rfl
  | some query =>
      refine (resolveRoot_unplaced types .mutation roots.mutation).bind fun mutation => ?_
      refine (resolveRoot_unplaced types .subscription roots.subscription).bind
        fun subscription => ?_
      exact .ok _

end Draft

theorem Schema.settle_unplaced (items : List (Loaded SchemaItem)) :
    Outcome.Alike Schema.unplaced (Schema.settle items)
      (((Loads.schemaBlocks items).map fun block => (none, block.2.unplaced)).foldlM Roots.take {}
        >>= (Draft.finish · ((Draft.settledTypes (Loads.definitions items)
          (Loads.extensions items)).mapValues SchemaType.unplaced))) :=
  (Outcome.Alike.foldlM Draft.take_unplaced _ {}).bind fun roots => Draft.finish_unplaced roots _

/-- Places play no part in what is built. -/
theorem Schema.ofItems_unplaced (items : List (Loaded SchemaItem)) :
    Outcome.Alike Schema.unplaced (Schema.ofItems items)
      (Schema.ofItems (items.map Loads.unplacedItem)) := by
  have hSettle : Outcome.Alike Schema.unplaced (Schema.settle items)
      (Schema.settle (items.map Loads.unplacedItem)) := by
    have hOther := settle_unplaced items
    rwa [← Loads.schemaBlocks_unplaced, Draft.settledTypes_unplaced,
      ← Loads.definitions_unplaced, ← Loads.extensions_unplaced] at hOther
  have hAccepts := Draft.acceptable_unplaced_iff (Loads.definitions items)
    (Loads.extensions items)
  rw [← Loads.definitions_unplaced, ← Loads.extensions_unplaced] at hAccepts
  rw [Outcome.Alike, ofItems_toOption, ofItems_toOption]
  by_cases h : Draft.Acceptable (Loads.definitions items) (Loads.extensions items)
  · rw [if_pos h, if_pos (hAccepts.mpr h)]
    exact hSettle
  · rw [if_neg h, if_neg (mt hAccepts.mp h)]
    rfl

end ResponseModels
