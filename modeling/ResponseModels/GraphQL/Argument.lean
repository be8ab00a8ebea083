import ResponseModels.GraphQL.Rule

/-! Values, arguments and directives. They have to be well formed, and are then forgotten:
nothing in the shape of a response depends on them. -/
namespace ResponseModels.GraphQL

/-- Read a value with fewer than `budget` brackets inside each other. A constant holds no
variables. -/
def valueRule (constant : Bool) : Nat → Rule Unit
  | 0 => failure
  | budget + 1 => do
    match (← Rule.next) with
    | .name _ => return ()
    | .number => return ()
    | .string _ => return ()
    | .punctuator '$' =>
      if constant then failure
      let _ ← Rule.name
      return ()
    | .punctuator '[' =>
      let _ ← Rule.many ']' (valueRule constant budget)
      return ()
    | .punctuator '\x7b' =>
      let _ ← Rule.many '\x7d' (do
        let _ ← Rule.name
        Rule.punctuator ':'
        valueRule constant budget)
      return ()
    | _ => failure

/-- Read a value that may hold variables. -/
def value : Rule Unit := valueRule false (maxOpenBrackets + 1)

/-- Read a value without variables. -/
def constant : Rule Unit := valueRule true (maxOpenBrackets + 1)

/-- Read arguments in parentheses, if there are any. -/
def arguments : Rule Unit := do
  let _ ← Rule.optional '(' ')' (do
    let _ ← Rule.name
    Rule.punctuator ':'
    value)
  return ()

/-- Read directives, and tell whether there were any. -/
def directives : Rule Bool := do
  let found ← Rule.each '@' (do
    let _ ← Rule.name
    arguments)
  return !found.isEmpty

/-- Read a default value, if there is one. -/
def defaultValue : Rule Unit := do
  if (← Rule.accept (.punctuator '=')) then constant

end ResponseModels.GraphQL
