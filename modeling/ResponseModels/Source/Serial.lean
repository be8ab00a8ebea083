import ResponseModels.Data.Datum
import ResponseModels.Source.Location

/-! Locations as plain data. -/
namespace ResponseModels

namespace FilePosition

def toDatum (p : FilePosition) : Datum :=
  .record [("col", .int p.column), ("file", .string p.file.text), ("line", .int p.line)]

/-- Lines and columns are numbers of 64 bits. -/
def coordinateBound : Nat := 18446744073709551615

def ofDatum? (datum : Datum) : Option FilePosition := do
  match (← datum.members? ["col", "file", "line"]) with
  | [some column, some file, some line] =>
    return ⟨← column.nat? coordinateBound, ⟨← file.string?⟩, ← line.nat? coordinateBound⟩
  | _ => none

end FilePosition

namespace Location

def toDatum : Location → Datum
  | .builtIn => .string "GraphQLBuiltIn"
  | .document p => .tagged "ExecutableDocument" p.toDatum
  | .schema => .string "Schema"
  | .schemaFile p => .tagged "SchemaFile" p.toDatum

def ofDatum? (datum : Datum) : Option Location := do
  match (← datum.tagged?) with
  | ("GraphQLBuiltIn", .null) => return .builtIn
  | ("ExecutableDocument", content) => return .document (← FilePosition.ofDatum? content)
  | ("Schema", .null) => return .schema
  | ("SchemaFile", content) => return .schemaFile (← FilePosition.ofDatum? content)
  | _ => none

end Location

end ResponseModels
