import ResponseModels.Schema.Type
import ResponseModels.Source.Files

/-! What can be wrong with a schema. -/
namespace ResponseModels

/-- Why a load or the build of a schema stopped. Each cause carries what its message names. -/
inductive SchemaError where
  | duplicateMember (union member : String) (location : Location)
  | duplicateField (type field : String) (first second : Location)
  | duplicateRoot (operation : String) (first second : Location)
  | duplicateType (type : String) (first second : Location)
  | extensionOfUndefined (type : String) (location : Location)
  | implementsNonInterface (type implemented : String) (location : Location)
  | reservedFieldName (type field : String) (location : Location)
  | reservedTypeName (type : String) (location : Location)
  | extensionOfOtherKind (type : String) (kind : TypeKind) (location : Location)
  | rootNotObject (type : String) (location : Location)
  | memberNotObject (union member : String) (location : Location)
  | noQueryRoot
  | malformed (file : SourcePath)
  | unreadable (file : SourcePath) (failure : ReadFailure)
  | undefinedType (type : String) (location : Location)
  deriving DecidableEq, Repr

namespace SchemaError

def message : SchemaError → String
  | duplicateMember union member _ =>
    s!"The `{union}` union type lists `{member}` as a member more than once"
  | duplicateField type field _ _ =>
    s!"Multiple fields named `{field}` were defined on the `{type}` type"
  | duplicateRoot operation _ _ =>
    s!"The `{operation}` root operation type was declared more than once"
  | duplicateType type _ _ => s!"Multiple GraphQL types named `{type}` were defined"
  | extensionOfUndefined type _ =>
    s!"Attempted to extend the `{type}` type, which is not defined"
  | implementsNonInterface type implemented _ =>
    s!"The `{type}` type declares that it implements `{implemented}`, " ++
      "which is not an interface type"
  | reservedFieldName type field _ =>
    s!"Field names must not start with `__` (found `{type}.{field}`)"
  | reservedTypeName type _ => s!"Type names must not start with `__` (found `{type}`)"
  | extensionOfOtherKind type kind _ =>
    s!"Attempted to extend the `{type}` type ({kind.text}) with an extension of a " ++
      "different kind of type"
  | rootNotObject type _ => s!"Root operation types must be object types, but `{type}` is not"
  | memberNotObject union member _ =>
    s!"The `{union}` union lists `{member}` as a member, but only object types may be " ++
      "union members"
  | noQueryRoot => "No `Query` root operation type was defined"
  | malformed file => s!"Error parsing schema document `{file.text}`"
  | unreadable file failure =>
    s!"Failure while reading the schema file `{file.text}`: {failure.message}"
  | undefinedType type _ => s!"Reference to the undefined type `{type}`"

end SchemaError

end ResponseModels
