import ResponseModels.GraphQL.TypeExpr
import ResponseModels.GraphQL.Argument
import ResponseModels.GraphQL.Lexer

/-! Operations and fragments as they are written. -/
namespace ResponseModels.GraphQL

/-- One item of a selection set. -/
inductive Selection where
  | field (position : Position) (label : Option String) (name : String)
      (selections : List Selection)
  | spread (position : Position) (fragment : String)
  | inline (position : Position) (condition : Option String) (selections : List Selection)
  deriving Repr, Inhabited

namespace Selection

def isField : Selection → Bool
  | field .. => true
  | _ => false

mutual

/-- The items in a selection, itself and everything nested in it counted. -/
def count : Selection → Nat
  | field _ _ _ selections => countAll selections + 1
  | spread _ _ => 1
  | inline _ _ selections => countAll selections + 1

/-- The items in a list of selections, everything nested in them counted. -/
def countAll : List Selection → Nat
  | [] => 0
  | selection :: rest => selection.count + countAll rest

end

mutual

/-- The fragments that a selection spreads at any depth, in the order of the text. -/
def spreads : Selection → List String
  | field _ _ _ selections => spreadsAll selections
  | spread _ fragment => [fragment]
  | inline _ _ selections => spreadsAll selections

/-- The fragments that a list of selections spreads at any depth, in the order of the text. -/
def spreadsAll : List Selection → List String
  | [] => []
  | selection :: rest => selection.spreads ++ spreadsAll rest

end

end Selection

/-- The three kinds of operations. -/
inductive OperationKind where
  | mutation
  | query
  | subscription
  deriving DecidableEq, Repr

namespace OperationKind

/-- The word that opens an operation of this kind. -/
def keyword : OperationKind → String
  | mutation => "mutation"
  | query => "query"
  | subscription => "subscription"

/-- The name of the root type that a schema has for this kind unless it says otherwise. -/
def defaultRoot : OperationKind → String
  | mutation => "Mutation"
  | query => "Query"
  | subscription => "Subscription"

end OperationKind

/-- A variable as an operation declares it. -/
structure Variable where
  name : String
  type : TypeExpr
  position : Position
  deriving DecidableEq, Repr

/-- An operation. A bare selection set is a query without a name and without variables, and
its place is that of its opening brace. -/
structure Operation where
  kind : OperationKind
  name : Option String
  position : Position
  vars : List Variable
  selections : List Selection
  deriving Repr

/-- A named fragment, with the type that its selections are written for. -/
structure Fragment where
  name : String
  condition : String
  position : Position
  selections : List Selection
  deriving Repr

/-- One definition of a document. -/
inductive ExecutableItem where
  | operation (operation : Operation)
  | fragment (fragment : Fragment)
  deriving Repr

/-- Read one item of a selection set, with a rule for the sets inside it. -/
def selection (innerSet : Rule (List Selection)) : Rule Selection := do
  let start ← Rule.here
  match (← Rule.next) with
  | .name first =>
    let aliased ← Rule.accept (.punctuator ':')
    let name ← if aliased then Rule.name else pure first
    arguments
    let _ ← directives
    let nested ← if (← Rule.at? (.punctuator '\x7b')) then innerSet else pure []
    return .field start (if aliased then some first else none) name nested
  | .ellipsis =>
    let position ← Rule.here
    match (← Rule.peek) with
    | some (.name "on") =>
      let _ ← Rule.next
      let condition ← Rule.name
      let _ ← directives
      return .inline position (some condition) (← innerSet)
    | some (.name fragment) =>
      let _ ← Rule.next
      let _ ← directives
      return .spread position fragment
    | _ =>
      let _ ← directives
      return .inline position none (← innerSet)
  | _ => failure

/-- Read a selection set with at most `budget` sets inside each other. -/
def selectionSetWithin : Nat → Rule (List Selection)
  | 0 => failure
  | budget + 1 => Rule.between '\x7b' '\x7d' (selection (selectionSetWithin budget))

/-- Read a selection set. -/
def selectionSet : Rule (List Selection) := selectionSetWithin maxOpenBrackets

/-- Read the definition of one variable. -/
def variableRule : Rule Variable := do
  let position ← Rule.here
  Rule.punctuator '$'
  let name ← Rule.name
  Rule.punctuator ':'
  let type ← TypeExpr.rule
  defaultValue
  return ⟨name, type, position⟩

/-- Read an operation behind its keyword. -/
def operationRule (kind : OperationKind) (position : Position) : Rule Operation := do
  let name ← if (← Rule.atName) then some <$> Rule.name else pure none
  let vars ← Rule.optional '(' ')' variableRule
  let _ ← directives
  let selections ← selectionSet
  return ⟨kind, name, position, vars, selections⟩

/-- Read a fragment behind its keyword. -/
def fragmentRule (position : Position) : Rule Fragment := do
  let name ← Rule.name
  Rule.keyword "on"
  let condition ← Rule.name
  let _ ← directives
  let selections ← selectionSet
  return ⟨name, condition, position, selections⟩

/-- Read one definition. -/
def executableItem : Rule ExecutableItem := do
  let position ← Rule.here
  if (← Rule.at? (.punctuator '\x7b')) then
    let selections ← selectionSet
    return .operation ⟨.query, none, position, [], selections⟩
  match (← Rule.name) with
  | "query" => return .operation (← operationRule .query position)
  | "mutation" => return .operation (← operationRule .mutation position)
  | "subscription" => return .operation (← operationRule .subscription position)
  | "fragment" => return .fragment (← fragmentRule position)
  | _ => failure

/-- The definitions in the text of a document, or nothing when it is no document. -/
def readExecutable? (text : String) : Option (List ExecutableItem) :=
  (tokens? text).bind (Rule.untilEnd executableItem).readAll?

end ResponseModels.GraphQL
