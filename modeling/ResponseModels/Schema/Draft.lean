import ResponseModels.Schema.Basic
import ResponseModels.Schema.Error
import ResponseModels.GraphQL.TypeSystem

/-! A schema in the making. Definitions take effect as they are loaded, extensions only when
the schema is built, so an extension may be loaded before the type that it extends. -/
namespace ResponseModels

open GraphQL

/-- What the loads so far have brought. -/
structure Draft where
  /-- Extensions with the file they come from, in load order. -/
  extensions : List (Option SourcePath × TypeDecl)
  mutation : Option TypeRef
  query : Option TypeRef
  subscription : Option TypeRef
  /-- How many texts were loaded without a file. The count starts over after 65535. -/
  unnamedLoads : UInt16
  types : OrderedMap SchemaType
  deriving DecidableEq, Repr

namespace Draft

/-- The draft that every schema starts from holds the built-in scalars. -/
def initial : Draft where
  extensions := []
  mutation := none
  query := none
  subscription := none
  unnamedLoads := 0
  types := ⟨[("Boolean", .bool), ("Float", .float), ("ID", .id), ("Int", .int),
    ("String", .string)]⟩

/-- Names that begin with two underscores are reserved. -/
def isReserved (name : String) : Bool := name.toList.take 2 == ['_', '_']

def fieldOf (file : Option SourcePath) (typeName : String) (decl : FieldDecl) : Field :=
  let location := Location.ofSchema file decl.position
  { location := location
    description := decl.description
    name := decl.name
    parent := ⟨typeName, location⟩
    annotation := .ofTypeExpr location decl.type }

/-- Add a declared field to those of a type. -/
def addField (file : Option SourcePath) (typeName : String) (fields : OrderedMap Field)
    (decl : FieldDecl) : Except SchemaError (OrderedMap Field) :=
  let field := fieldOf file typeName decl
  if isReserved decl.name then .error (.reservedFieldName typeName decl.name field.location)
  else
    match fields.get? decl.name with
    | some earlier => .error (.duplicateField typeName decl.name earlier.location field.location)
    | none => .ok (fields.insert decl.name field)

/-- The fields of a list of declarations. -/
def declaredFields (file : Option SourcePath) (typeName : String) (decls : List FieldDecl) :
    Except SchemaError (OrderedMap Field) :=
  decls.foldlM (addField file typeName) .empty

/-- Take over a field that is declared elsewhere into the fields of a type. -/
def includeField (typeName : String) (fields : OrderedMap Field) (entry : String × Field) :
    Except SchemaError (OrderedMap Field) :=
  match fields.get? entry.1 with
  | some earlier =>
    .error (.duplicateField typeName entry.1 earlier.location entry.2.location)
  | none => .ok (fields.insert entry.1 entry.2)

def fieldedTypeOf (file : Option SourcePath) (decl : TypeDecl) (interfaces : List String)
    (fields : List FieldDecl) : Except SchemaError FieldedType := do
  let location := Location.ofSchema file decl.position
  let declared ← declaredFields file decl.name fields
  return {
    location := location
    description := decl.description
    fields := ⟨("__typename", .typename decl.name location) :: declared.entries⟩
    interfaces := interfaces.map (⟨·, location⟩)
    name := decl.name }

/-- Add a member to those of a union that is being defined. -/
def addMember (unionName : String) (location : Location) (members : OrderedMap TypeRef)
    (member : String) : Except SchemaError (OrderedMap TypeRef) :=
  if members.contains member then .error (.duplicateMember unionName member location)
  else .ok (members.insert member ⟨member, location⟩)

def inputField (file : Option SourcePath) (decl : InputDecl) : String × Annotation :=
  (decl.name, .ofTypeExpr (.ofSchema file decl.position) decl.type)

/-- Put input fields behind others. One that is already there takes the new annotation. -/
def addInputFields (file : Option SourcePath) (fields : OrderedMap Annotation)
    (decls : List InputDecl) : OrderedMap Annotation :=
  (decls.map (inputField file)).foldl (fun m entry => m.insert entry.1 entry.2) fields

/-- The type that a definition stands for. -/
def typeOf (file : Option SourcePath) (decl : TypeDecl) : Except SchemaError SchemaType := do
  let location := Location.ofSchema file decl.position
  match decl.body with
  | .scalar => return .scalar ⟨location, decl.description, decl.name⟩
  | .object interfaces fields => return .object (← fieldedTypeOf file decl interfaces fields)
  | .interface interfaces fields => return .interface (← fieldedTypeOf file decl interfaces fields)
  | .union members =>
    return .union ⟨location, decl.description, decl.name,
      ← members.foldlM (addMember decl.name location) .empty⟩
  | .enum values => return .enum ⟨location, decl.description, decl.name, values⟩
  | .input fields =>
    return .input ⟨location, decl.description, addInputFields file .empty fields, decl.name⟩

/-- Define a type under a name that is neither reserved nor taken. -/
def define (draft : Draft) (file : Option SourcePath) (decl : TypeDecl) :
    Except SchemaError Draft := do
  let type ← typeOf file decl
  let location := Location.ofSchema file decl.position
  if isReserved decl.name then throw (.reservedTypeName decl.name location)
  match draft.types.get? decl.name with
  | some earlier => throw (.duplicateType decl.name earlier.location location)
  | none => return { draft with types := draft.types.insert decl.name type }

/-- The root type of one kind after a schema block that may name one. -/
def setRoot (operation : String) (location : Location) (known : Option TypeRef) :
    Option String → Except SchemaError (Option TypeRef)
  | none => .ok known
  | some name =>
    match known with
    | some earlier => .error (.duplicateRoot operation earlier.location location)
    | none => .ok (some ⟨name, location⟩)

/-- Take in the root types that a schema block names. -/
def setRoots (draft : Draft) (file : Option SourcePath) (decl : RootsDecl) :
    Except SchemaError Draft := do
  let location := Location.ofSchema file decl.position
  let query ← setRoot "query" location draft.query decl.query
  let mutation ← setRoot "mutation" location draft.mutation decl.mutation
  let subscription ← setRoot "subscription" location draft.subscription decl.subscription
  return { draft with query := query, mutation := mutation, subscription := subscription }

/-- Take in one definition. -/
def add (file : Option SourcePath) (draft : Draft) : SchemaItem → Except SchemaError Draft
  | .roots decl => draft.setRoots file decl
  | .define decl => draft.define file decl
  | .extend decl => .ok { draft with extensions := draft.extensions ++ [(file, decl)] }
  | .directive => .ok draft

/-- Take in definitions in their order, up to the first that is wrong. -/
def addAll (draft : Draft) (file : Option SourcePath) (items : List SchemaItem) :
    Except SchemaError Draft :=
  items.foldlM (add file) draft

/-- The name under which text without a file is reported. -/
def unnamedPath (draft : Draft) : SourcePath := ⟨"str://" ++ toString draft.unnamedLoads⟩

/-- Load a text. -/
def load (draft : Draft) (file : Option SourcePath) (text : String) : Except SchemaError Draft :=
  match readTypeSystem? text with
  | none => .error (.malformed (file.getD draft.unnamedPath))
  | some items =>
    let counted := if file.isNone then draft.unnamedLoads + 1 else draft.unnamedLoads
    { draft with unnamedLoads := counted }.addAll file items

/-- Load a file. -/
def loadFile (draft : Draft) (files : Files) (path : SourcePath) : Except SchemaError Draft :=
  match files.read path with
  | .error failure => .error (.unreadable path failure)
  | .ok text => draft.load (some path) text

def loadFiles (draft : Draft) (files : Files) (paths : List SourcePath) :
    Except SchemaError Draft :=
  paths.foldlM (fun draft path => draft.loadFile files path) draft

def extendFielded (file : Option SourcePath) (location : Location) (type : FieldedType)
    (interfaces : List String) (fields : List FieldDecl) : Except SchemaError FieldedType := do
  let declared ← declaredFields file type.name fields
  let all ← declared.entries.foldlM (includeField type.name) type.fields
  return { type with
    fields := all
    interfaces := type.interfaces ++ interfaces.map (⟨·, location⟩) }

/-- A type with the items of an extension added. Fields of objects and interfaces must be new;
a union member or an input field that is already there takes the extension's reference. -/
def extendType (file : Option SourcePath) (decl : TypeDecl) (type : SchemaType) :
    Except SchemaError SchemaType := do
  let location := Location.ofSchema file decl.position
  match type, decl.body with
  | .enum type, .enum values => return .enum { type with values := type.values ++ values }
  | .interface type, .interface interfaces fields =>
    return .interface (← extendFielded file location type interfaces fields)
  | .object type, .object interfaces fields =>
    return .object (← extendFielded file location type interfaces fields)
  | .scalar type, .scalar => return .scalar type
  | .union type, .union members =>
    let all := members.foldl (fun m member => m.insert member ⟨member, location⟩) type.members
    return .union { type with members := all }
  | .input type, .input fields =>
    return .input { type with fields := addInputFields file type.fields fields }
  | type, _ => throw (.extensionOfOtherKind decl.name type.kind location)

/-- Apply one extension. -/
def extend (types : OrderedMap SchemaType) (extension : Option SourcePath × TypeDecl) :
    Except SchemaError (OrderedMap SchemaType) := do
  let (file, decl) := extension
  match types.get? decl.name with
  | none => throw (.extensionOfUndefined decl.name (.ofSchema file decl.position))
  | some type => return types.replace decl.name (← extendType file decl type)

/-- Is the referenced type defined? -/
def checkRef (types : OrderedMap SchemaType) (ref : TypeRef) : Except SchemaError Unit :=
  if types.contains ref.name then .ok () else .error (.undefinedType ref.name ref.location)

/-- Is the referenced type defined as an interface? -/
def checkInterface (types : OrderedMap SchemaType) (typeName : String) (ref : TypeRef) :
    Except SchemaError Unit := do
  checkRef types ref
  match types.get? ref.name with
  | some (.interface _) => return ()
  | _ => throw (.implementsNonInterface typeName ref.name ref.location)

/-- Is the referenced type defined as an object? -/
def checkMember (types : OrderedMap SchemaType) (unionName : String) (ref : TypeRef) :
    Except SchemaError Unit := do
  checkRef types ref
  match types.get? ref.name with
  | some (.object _) => return ()
  | _ => throw (.memberNotObject unionName ref.name ref.location)

def checkFielded (types : OrderedMap SchemaType) (type : FieldedType) :
    Except SchemaError Unit := do
  type.fields.values.forM fun field => checkRef types field.annotation.innermost
  type.interfaces.forM (checkInterface types type.name)

/-- Does everything that a type refers to exist, and is it of the right kind? -/
def checkType (types : OrderedMap SchemaType) : SchemaType → Except SchemaError Unit
  | .interface type => checkFielded types type
  | .object type => checkFielded types type
  | .union type => type.members.values.forM (checkMember types type.name)
  | .input type => type.fields.values.forM fun annotation => checkRef types annotation.innermost
  | _ => .ok ()

/-- The root type of one kind: the one that a schema block names, or else an object type with
the default name. -/
def resolveRoot (types : OrderedMap SchemaType) (kind : OperationKind) (named : Option TypeRef) :
    Except SchemaError (Option TypeRef) :=
  match named with
  | some ref =>
    match types.get? ref.name with
    | some (.object _) => .ok (some ref)
    | _ => .error (.rootNotObject ref.name ref.location)
  | none =>
    match types.get? kind.defaultRoot with
    | some (.object type) => .ok (some ⟨kind.defaultRoot, type.location⟩)
    | _ => .ok none

/-- Build the schema: apply the extensions in load order, check every reference, and settle
the root types. -/
def build (draft : Draft) : Except SchemaError Schema := do
  let types ← draft.extensions.foldlM extend draft.types
  types.values.forM (checkType types)
  match (← resolveRoot types .query draft.query) with
  | none => throw .noQueryRoot
  | some query =>
    let mutation ← resolveRoot types .mutation draft.mutation
    let subscription ← resolveRoot types .subscription draft.subscription
    return ⟨mutation, query, subscription, types⟩

end Draft

end ResponseModels
