import ResponseModels.Schema.Type
import ResponseModels.GraphQL.Executable

/-! Schemas, and the questions about them that models hang on: which interfaces a type
implements, which objects a value of a type may be, and to which types a fragment applies. -/
namespace ResponseModels

/-- A schema. Types stand in the order of their definitions, the built-in scalars first. -/
structure Schema where
  mutation : Option TypeRef
  query : TypeRef
  subscription : Option TypeRef
  types : OrderedMap SchemaType
  deriving DecidableEq, Repr

namespace Schema

def type? (schema : Schema) (name : String) : Option SchemaType := schema.types.get? name

def object? (schema : Schema) (name : String) : Option FieldedType :=
  (schema.type? name).bind SchemaType.object?

def interface? (schema : Schema) (name : String) : Option FieldedType :=
  (schema.type? name).bind SchemaType.interface?

/-- Does one of the referenced interfaces have the given name, or implement an interface of
that name, through at most `steps` further interfaces? -/
def reachesInterface (schema : Schema) (name : String) : Nat → List TypeRef → Bool
  | 0, refs => refs.any (·.name == name)
  | steps + 1, refs =>
    refs.any fun ref =>
      ref.name == name ||
        match schema.interface? ref.name with
        | some interface => schema.reachesInterface name steps interface.interfaces
        | none => false

/-- Does the type implement the named interface, directly or through other interfaces? No
chain of distinct interfaces is longer than the list of types. -/
def implements (schema : Schema) (type : FieldedType) (name : String) : Bool :=
  schema.reachesInterface name schema.types.size type.interfaces

/-- The interfaces that a type lists and that are defined as interfaces. -/
def interfacesOf (schema : Schema) (type : FieldedType) : List FieldedType :=
  type.interfaces.filterMap fun ref => schema.interface? ref.name

/-- The members of a union that are defined as object types. -/
def membersOf (schema : Schema) (type : UnionType) : List FieldedType :=
  type.members.values.filterMap fun ref => schema.object? ref.name

/-- The object types that a value of the named type may have: an object itself, the
implementing objects of an interface in the order of their definitions, the members of a
union in the order of the union. -/
def possibleTypes (schema : Schema) (name : String) : List FieldedType :=
  match schema.type? name with
  | some (.object type) => [type]
  | some (.interface _) =>
    (schema.types.values.filterMap SchemaType.object?).filter (schema.implements · name)
  | some (.union type) => schema.membersOf type
  | _ => []

/-- May a value of this object type stand where the named type is expected? -/
def isPossibleTypeOf (schema : Schema) (type : FieldedType) (name : String) : Bool :=
  type.name == name ||
    match schema.type? name with
    | some (.interface _) => schema.implements type name
    | some (.union union) => union.members.keys.contains type.name
    | _ => false

/-- Does a fragment on `condition` apply to values of `type`? -/
def applies (schema : Schema) (condition type : SchemaType) : Bool :=
  condition.name == type.name ||
    match type with
    | .object object => schema.isPossibleTypeOf object condition.name
    | .interface interface =>
      condition.interface?.isSome && schema.implements interface condition.name
    | _ => false

/-- The reference to the root type for a kind of operation. -/
def rootRef? (schema : Schema) : GraphQL.OperationKind → Option TypeRef
  | .mutation => schema.mutation
  | .query => some schema.query
  | .subscription => schema.subscription

/-- The root type for a kind of operation, if it is defined as an object type. -/
def root? (schema : Schema) (kind : GraphQL.OperationKind) : Option FieldedType :=
  (schema.rootRef? kind).bind fun ref => schema.object? ref.name

end Schema

end ResponseModels
