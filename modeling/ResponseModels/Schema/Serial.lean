import ResponseModels.Schema.Basic
import ResponseModels.Source.Serial

/-! Schemas as plain data. Reading checks the form only: references may lead nowhere, and a
type may stand under a name that is not its own. -/
namespace ResponseModels

namespace TypeRef

def toDatum (ref : TypeRef) : Datum :=
  .record [("name", .string ref.name), ("ref_location", ref.location.toDatum)]

def ofDatum? (datum : Datum) : Option TypeRef := do
  match (← datum.members? ["name", "ref_location"]) with
  | [some name, some location] => return ⟨← name.string?, ← Location.ofDatum? location⟩
  | _ => none

end TypeRef

namespace Annotation

def toDatum : Annotation → Datum
  | .list item nullable location =>
    .tagged "List" (.record
      [("inner", item.toDatum), ("nullable", .bool nullable), ("ref_location", location.toDatum)])
  | .named nullable type =>
    .tagged "Named" (.record [("nullable", .bool nullable), ("type_ref", type.toDatum)])

/-- The item, nullability and location of a list annotation's contents. -/
def listMembers? (content : Datum) : Option (Datum × Datum × Datum) := do
  match (← content.members? ["inner", "nullable", "ref_location"]) with
  | [some item, some nullable, some location] => return (item, nullable, location)
  | _ => none

def namedOfDatum? (content : Datum) : Option Annotation := do
  match (← content.members? ["nullable", "type_ref"]) with
  | [some nullable, some type] => return .named (← nullable.bool?) (← TypeRef.ofDatum? type)
  | _ => none

/-- Read an annotation with fewer than `depth` lists inside each other. -/
def ofDatumWithin? : Nat → Datum → Option Annotation
  | 0, _ => none
  | depth + 1, datum => do
    match (← datum.tagged?) with
    | ("List", content) =>
      let (item, nullable, location) ← listMembers? content
      return .list (← ofDatumWithin? depth item) (← nullable.bool?) (← Location.ofDatum? location)
    | ("Named", content) => namedOfDatum? content
    | _ => none

/-- A list annotation lies deeper than its item, so the depth of the data bounds the lists. -/
def ofDatum? (datum : Datum) : Option Annotation := ofDatumWithin? (datum.depth + 1) datum

end Annotation

namespace Field

def toDatum (field : Field) : Datum :=
  .record
    [("def_location", field.location.toDatum), ("description", .ofOption .string field.description),
      ("name", .string field.name), ("parent_type", field.parent.toDatum),
      ("type_annotation", field.annotation.toDatum)]

def ofDatum? (datum : Datum) : Option Field := do
  match (← datum.members?
    ["def_location", "description", "name", "parent_type", "type_annotation"]) with
  | [some location, description, some name, some parent, some annotation] =>
    return ⟨← Location.ofDatum? location, ← Datum.optional? Datum.string? description,
      ← name.string?, ← TypeRef.ofDatum? parent, ← Annotation.ofDatum? annotation⟩
  | _ => none

end Field

namespace FieldedType

def toDatum (type : FieldedType) : Datum :=
  .record
    [("def_location", type.location.toDatum), ("description", .ofOption .string type.description),
      ("fields", .ofMap Field.toDatum type.fields),
      ("interfaces", .array (type.interfaces.map TypeRef.toDatum)), ("name", .string type.name)]

def ofDatum? (datum : Datum) : Option FieldedType := do
  match (← datum.named? ["def_location", "description", "fields", "interfaces", "name"]) with
  | [some location, description, some fields, some interfaces, some name] =>
    return ⟨← Location.ofDatum? location, ← Datum.optional? Datum.string? description,
      ← fields.map? Field.ofDatum?, ← interfaces.list? TypeRef.ofDatum?, ← name.string?⟩
  | _ => none

end FieldedType

namespace UnionType

def toDatum (type : UnionType) : Datum :=
  .record
    [("def_location", type.location.toDatum), ("description", .ofOption .string type.description),
      ("name", .string type.name), ("members", .ofMap TypeRef.toDatum type.members)]

def ofDatum? (datum : Datum) : Option UnionType := do
  match (← datum.named? ["def_location", "description", "name", "members"]) with
  | [some location, description, some name, some members] =>
    return ⟨← Location.ofDatum? location, ← Datum.optional? Datum.string? description,
      ← name.string?, ← members.map? TypeRef.ofDatum?⟩
  | _ => none

end UnionType

namespace EnumType

def toDatum (type : EnumType) : Datum :=
  .record
    [("def_location", type.location.toDatum), ("description", .ofOption .string type.description),
      ("name", .string type.name), ("values", .array (type.values.map .string))]

def ofDatum? (datum : Datum) : Option EnumType := do
  match (← datum.members? ["def_location", "description", "name", "values"]) with
  | [some location, description, some name, some values] =>
    return ⟨← Location.ofDatum? location, ← Datum.optional? Datum.string? description,
      ← name.string?, ← values.list? Datum.string?⟩
  | _ => none

end EnumType

namespace InputType

def toDatum (type : InputType) : Datum :=
  .record
    [("def_location", type.location.toDatum), ("description", .ofOption .string type.description),
      ("fields", .ofMap Annotation.toDatum type.fields), ("name", .string type.name)]

def ofDatum? (datum : Datum) : Option InputType := do
  match (← datum.named? ["def_location", "description", "fields", "name"]) with
  | [some location, description, some fields, some name] =>
    return ⟨← Location.ofDatum? location, ← Datum.optional? Datum.string? description,
      ← fields.map? Annotation.ofDatum?, ← name.string?⟩
  | _ => none

end InputType

namespace ScalarType

def toDatum (type : ScalarType) : Datum :=
  .record
    [("def_location", type.location.toDatum), ("description", .ofOption .string type.description),
      ("name", .string type.name)]

def ofDatum? (datum : Datum) : Option ScalarType := do
  match (← datum.members? ["def_location", "description", "name"]) with
  | [some location, description, some name] =>
    return ⟨← Location.ofDatum? location, ← Datum.optional? Datum.string? description,
      ← name.string?⟩
  | _ => none

end ScalarType

namespace SchemaType

/-- A built-in scalar is written as the word for its kind, any other type under that word. -/
def toDatum (type : SchemaType) : Datum :=
  match type with
  | .enum content => .tagged type.kind.text content.toDatum
  | .input content => .tagged type.kind.text content.toDatum
  | .interface content => .tagged type.kind.text content.toDatum
  | .object content => .tagged type.kind.text content.toDatum
  | .scalar content => .tagged type.kind.text content.toDatum
  | .union content => .tagged type.kind.text content.toDatum
  | _ => .string type.kind.text

def ofDatum? (datum : Datum) : Option SchemaType := do
  match (← datum.tagged?) with
  | ("Bool", .null) => return .bool
  | ("Float", .null) => return .float
  | ("ID", .null) => return .id
  | ("Int", .null) => return .int
  | ("String", .null) => return .string
  | ("Enum", content) => return .enum (← EnumType.ofDatum? content)
  | ("InputObject", content) => return .input (← InputType.ofDatum? content)
  | ("Interface", content) => return .interface (← FieldedType.ofDatum? content)
  | ("Object", content) => return .object (← FieldedType.ofDatum? content)
  | ("Scalar", content) => return .scalar (← ScalarType.ofDatum? content)
  | ("Union", content) => return .union (← UnionType.ofDatum? content)
  | _ => none

end SchemaType

namespace Schema

def toDatum (schema : Schema) : Datum :=
  .record
    [("mutation_type", .ofOption TypeRef.toDatum schema.mutation),
      ("query_type", schema.query.toDatum),
      ("subscription_type", .ofOption TypeRef.toDatum schema.subscription),
      ("types", .ofMap SchemaType.toDatum schema.types)]

def ofDatum? (datum : Datum) : Option Schema := do
  match (← datum.named? ["mutation_type", "query_type", "subscription_type", "types"]) with
  | [mutation, some query, subscription, some types] =>
    return ⟨← Datum.optional? TypeRef.ofDatum? mutation, ← TypeRef.ofDatum? query,
      ← Datum.optional? TypeRef.ofDatum? subscription, ← types.map? SchemaType.ofDatum?⟩
  | _ => none

end Schema

end ResponseModels
