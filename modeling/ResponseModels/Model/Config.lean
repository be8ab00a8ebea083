import ResponseModels.Data.Datum

/-! How models are named and shaped. -/
namespace ResponseModels

/-- The choices that a compilation leaves open. -/
structure Config where
  /-- Stands in for the name of an operation that has none. -/
  anonymousName : String
  /-- Should one class stand for all possible types that select the same fields? -/
  collapseCases : Bool
  interfacePrefix : String
  /-- The largest number put behind a name to make it unique. -/
  maxSuffix : Nat
  parserSuffix : String
  deriving DecidableEq, Repr

namespace Config

/-- The largest suffix that can be asked for. -/
def suffixBound : Nat := 4294967295

def standard : Config := ⟨"Anonymous", true, "I", suffixBound, "ResultParser"⟩

def toDatum (config : Config) : Datum :=
  .record
    [("anonymous_operation_name", .string config.anonymousName),
      ("collapse_type_cases", .bool config.collapseCases),
      ("interface_prefix", .string config.interfacePrefix),
      ("max_name_suffix", .int config.maxSuffix),
      ("result_parser_suffix", .string config.parserSuffix)]

/-- A member that takes its standard value when it is missing. -/
def member? {α : Type} (read : Datum → Option α) (standard : α) : Option Datum → Option α
  | none => some standard
  | some datum => read datum

/-- The five members of a configuration, each of which may be missing. A list gives them in
order and may stop early. -/
def members? : Datum → Option (List (Option Datum))
  | .record members =>
    some (["anonymous_operation_name", "collapse_type_cases", "interface_prefix",
      "max_name_suffix", "result_parser_suffix"].map (List.lookup · members))
  | .array items =>
    if items.length ≤ 5 then some (items.map some ++ List.replicate (5 - items.length) none)
    else none
  | _ => none

def ofDatum? (datum : Datum) : Option Config := do
  match (← members? datum) with
  | [anonymousName, collapseCases, interfacePrefix, maxSuffix, parserSuffix] =>
    return ⟨← member? Datum.string? standard.anonymousName anonymousName,
      ← member? Datum.bool? standard.collapseCases collapseCases,
      ← member? Datum.string? standard.interfacePrefix interfacePrefix,
      ← member? (Datum.nat? suffixBound) standard.maxSuffix maxSuffix,
      ← member? Datum.string? standard.parserSuffix parserSuffix⟩
  | _ => none

end Config

end ResponseModels
