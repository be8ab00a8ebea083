import ResponseModels.Data.OrderedMap
import ResponseModels.Schema.Annotation

/-! The types that a schema defines. -/
namespace ResponseModels

/-- A field of an object or interface type. -/
structure Field where
  location : Location
  description : Option String
  name : String
  parent : TypeRef
  annotation : Annotation
  deriving DecidableEq, Repr

namespace Field

/-- The field `__typename: String!` that every composite type has without declaring it. -/
def typename (parent : String) (location : Location) : Field where
  location := .builtIn
  description := none
  name := "__typename"
  parent := ⟨parent, location⟩
  annotation := .named false ⟨"String", location⟩

end Field

/-- What object and interface types have in common: fields, and interfaces they implement. -/
structure FieldedType where
  location : Location
  description : Option String
  fields : OrderedMap Field
  interfaces : List TypeRef
  name : String
  deriving DecidableEq, Repr

/-- A type whose values are those of its members. -/
structure UnionType where
  location : Location
  description : Option String
  name : String
  members : OrderedMap TypeRef
  deriving DecidableEq, Repr

/-- A type whose values are listed by name. -/
structure EnumType where
  location : Location
  description : Option String
  name : String
  values : List String
  deriving DecidableEq, Repr

/-- A type of structured arguments. Nothing is ever selected on it. -/
structure InputType where
  location : Location
  description : Option String
  fields : OrderedMap Annotation
  name : String
  deriving DecidableEq, Repr

/-- A scalar that the schema names and does not explain. -/
structure ScalarType where
  location : Location
  description : Option String
  name : String
  deriving DecidableEq, Repr

/-- A type: one of the five built-in scalars, or one that the schema defines. -/
inductive SchemaType where
  | bool
  | enum (type : EnumType)
  | float
  | id
  | input (type : InputType)
  | int
  | interface (type : FieldedType)
  | object (type : FieldedType)
  | scalar (type : ScalarType)
  | string
  | union (type : UnionType)
  deriving DecidableEq, Repr

/-- The kind of a type without its definition. -/
inductive TypeKind where
  | bool
  | enum
  | float
  | id
  | input
  | int
  | interface
  | object
  | scalar
  | string
  | union
  deriving DecidableEq, Repr

namespace TypeKind

/-- Only values of composite types have fields, so only they carry selection sets. -/
def isComposite : TypeKind → Bool
  | interface => true
  | object => true
  | union => true
  | _ => false

/-- The word for a kind in messages and in serialized form. -/
def text : TypeKind → String
  | bool => "Bool"
  | enum => "Enum"
  | float => "Float"
  | id => "ID"
  | input => "InputObject"
  | int => "Int"
  | interface => "Interface"
  | object => "Object"
  | scalar => "Scalar"
  | string => "String"
  | union => "Union"

end TypeKind

namespace SchemaType

def kind : SchemaType → TypeKind
  | bool => .bool
  | enum _ => .enum
  | float => .float
  | id => .id
  | input _ => .input
  | int => .int
  | interface _ => .interface
  | object _ => .object
  | scalar _ => .scalar
  | string => .string
  | union _ => .union

def name : SchemaType → String
  | bool => "Boolean"
  | float => "Float"
  | id => "ID"
  | int => "Int"
  | string => "String"
  | enum type => type.name
  | input type => type.name
  | interface type => type.name
  | object type => type.name
  | scalar type => type.name
  | union type => type.name

def location : SchemaType → Location
  | enum type => type.location
  | input type => type.location
  | interface type => type.location
  | object type => type.location
  | scalar type => type.location
  | union type => type.location
  | _ => .builtIn

def isComposite (type : SchemaType) : Bool := type.kind.isComposite

def object? : SchemaType → Option FieldedType
  | object type => some type
  | _ => none

def interface? : SchemaType → Option FieldedType
  | interface type => some type
  | _ => none

def union? : SchemaType → Option UnionType
  | union type => some type
  | _ => none

/-- A field that the type declares. Only object and interface types declare fields. -/
def field? (type : SchemaType) (fieldName : String) : Option Field :=
  match type with
  | interface type => type.fields.get? fieldName
  | object type => type.fields.get? fieldName
  | _ => none

/-- A field that can be selected on the type. A union declares none, and still has its
`__typename`. -/
def selectable? (type : SchemaType) (fieldName : String) : Option Field :=
  match type with
  | union type =>
    if fieldName = "__typename" then some (.typename type.name type.location) else none
  | _ => type.field? fieldName

end SchemaType

end ResponseModels
