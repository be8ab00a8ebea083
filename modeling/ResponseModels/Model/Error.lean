import ResponseModels.GraphQL.Executable
import ResponseModels.Model.Origin

/-! Why a document has no models. -/
namespace ResponseModels

/-- Why compiling stopped. Each cause carries what its message names. -/
inductive ModelError where
  | inconsistentCases (type : String) (path : ModelPath)
  | missingRoot (kind : GraphQL.OperationKind) (operation : String) (location : Location)
  | namesExhausted (proposed : String) (maxSuffix : Nat)
  | notComposite (type : String) (path : ModelPath)
  | undefinedFragment (fragment : String) (location : Location) (path : ModelPath)
  | unknownField (field type : String) (location : Location) (path : ModelPath)
  | unknownOperation (operation : String)
  | undefinedCondition (type : String) (fragment : Option String) (location : Location)
      (path : ModelPath)
  deriving DecidableEq, Repr

namespace ModelError

def message : ModelError → String
  | inconsistentCases type path =>
    s!"No possible object types were found for `{type}` while modelling `{path.text}`"
  | missingRoot kind operation location =>
    s!"The schema defines no {kind.keyword} root operation type (needed by the " ++
      s!"`{operation}` operation at {location.text})"
  | namesExhausted proposed maxSuffix =>
    s!"Unable to find a unique name for `{proposed}` after trying suffixes up to {maxSuffix}"
  | notComposite type path =>
    s!"`{path.text}` selects a selection set on `{type}`, which is not an object, interface, " ++
      "or union type"
  | undefinedFragment fragment location path =>
    s!"The fragment `{fragment}` is spread at `{path.text}` ({location.text}) but is never defined"
  | unknownField field type location path =>
    s!"The `{type}` type has no field named `{field}` (selected at `{path.text}`, " ++
      s!"{location.text})"
  | unknownOperation operation => s!"The document defines no operation named `{operation}`"
  | undefinedCondition type fragment location path =>
    let owner := match fragment with
      | some name => s!" of fragment `{name}`"
      | none => ""
    s!"The type condition `{type}`{owner} does not name a type defined in the schema (at " ++
      s!"`{path.text}`, {location.text})"

end ModelError

end ResponseModels
