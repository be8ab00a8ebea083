import ResponseModels.Selection.Collect

/-! Type cases: one selection set seen at each object type that its value may have. -/
namespace ResponseModels

open GraphQL

/-- The object types that a value of the declared type may have. There must be at least one. -/
def Schema.requirePossibleTypes (schema : Schema) (declared : SchemaType) (path : ModelPath) :
    Except ModelError (List FieldedType) :=
  if !declared.isComposite then .error (.notComposite declared.name path)
  else
    match schema.possibleTypes declared.name with
    | [] => .error (.inconsistentCases declared.name path)
    | types => .ok types

namespace Setting

/-- The selections at one possible type of the declared type. -/
def typeCase (setting : Setting) (declared : SchemaType) (selections : List Selection)
    (path : ModelPath) (possible : FieldedType) : Except ModelError Collected :=
  match setting.schema.type? possible.name with
  | none => .error (.inconsistentCases declared.name path)
  | some type => setting.collectIn declared type selections path

/-- The selections at each possible type of the declared type. -/
def typeCases (setting : Setting) (declared : SchemaType) (selections : List Selection)
    (path : ModelPath) : Except ModelError (List Collected) := do
  (← setting.schema.requirePossibleTypes declared path).mapM
    (setting.typeCase declared selections path)

end Setting

/-- Keep only the first case when all cases select the same fields. -/
def collapseCases : List Collected → List Collected
  | [] => []
  | first :: rest => if rest.all first.sameFields then [first] else first :: rest

end ResponseModels
