import ResponseModels.GraphQL.Rule

/-! Types as they are written in documents and schemas. -/
namespace ResponseModels.GraphQL

/-- A written type. Text never wraps a non-null type into another one, but a tree that was
built by other means may. -/
inductive TypeExpr where
  | named (name : String)
  | list (item : TypeExpr)
  | nonNull (inner : TypeExpr)
  deriving DecidableEq, Repr, Inhabited

namespace TypeExpr

/-- Read a type with fewer than `budget` lists inside each other. -/
def ruleWithin : Nat → Rule TypeExpr
  | 0 => failure
  | budget + 1 => do
    let base ← (do
      match (← Rule.next) with
      | .name text => return named text
      | .punctuator '[' =>
        let item ← ruleWithin budget
        Rule.punctuator ']'
        return list item
      | _ => failure : Rule TypeExpr)
    if (← Rule.accept (.punctuator '!')) then return nonNull base else return base

/-- Read a type. -/
def rule : Rule TypeExpr := ruleWithin (maxOpenBrackets + 1)

end TypeExpr

end ResponseModels.GraphQL
