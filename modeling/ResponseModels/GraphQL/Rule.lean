import ResponseModels.GraphQL.Token

/-! Grammar rules as readers of a token list. No rule takes back what it has read: the next
token alone decides between alternatives, and a rule that fails after it fails the whole
text. -/
namespace ResponseModels.GraphQL

/-- A rule reads tokens from the front of a list and leaves the rest. -/
abbrev Rule := StateT (List Lexeme) Option

namespace Rule

variable {α : Type}

/-- The next token, which stays unread. -/
def peek : Rule (Option Token) := do return (← get).head?.map Lexeme.token

/-- The place of the next token. -/
def here : Rule Position := do
  match (← get) with
  | lexeme :: _ => return lexeme.position
  | [] => failure

def next : Rule Token := do
  match (← get) with
  | lexeme :: rest =>
    set rest
    return lexeme.token
  | [] => failure

/-- Is the next token the given one? It stays unread. -/
def at? (token : Token) : Rule Bool := do return (← peek) == some token

/-- Read the given token. -/
def expect (token : Token) : Rule Unit := do
  if (← next) = token then return () else failure

/-- Read the given token if it comes next. -/
def accept (token : Token) : Rule Bool := do
  if (← at? token) then
    let _ ← next
    return true
  else return false

def punctuator (c : Char) : Rule Unit := expect (.punctuator c)

/-- Read any name, keywords included. -/
def name : Rule String := do
  match (← next) with
  | .name text => return text
  | _ => failure

/-- Read a name that has to be the given one. -/
def keyword (word : String) : Rule Unit := expect (.name word)

/-- Does a name come next? -/
def atName : Rule Bool := do
  match (← peek) with
  | some (.name _) => return true
  | _ => return false

/-- Read items until the closing token comes next, at most `budget` of them. -/
def itemsUntil (close : Token) (item : Rule α) : Nat → Rule (List α)
  | 0 => failure
  | budget + 1 => do
    if (← at? close) then return []
    let first ← item
    let rest ← itemsUntil close item budget
    return first :: rest

/-- Read items up to the closing token and that token too. Every item takes at least one
token, so the tokens left bound the items. -/
def many (close : Char) (item : Rule α) : Rule (List α) := do
  let items ← itemsUntil (.punctuator close) item (← get).length
  punctuator close
  return items

/-- Like `many`, with at least one item. -/
def atLeastOne (close : Char) (item : Rule α) : Rule (List α) := do
  let items ← many close item
  if items.isEmpty then failure else return items

/-- Read items between brackets, at least one. -/
def between (openBracket closeBracket : Char) (item : Rule α) : Rule (List α) := do
  punctuator openBracket
  atLeastOne closeBracket item

/-- Read items between brackets, or nothing when the opening bracket does not come next. -/
def optional (openBracket closeBracket : Char) (item : Rule α) : Rule (List α) := do
  if (← at? (.punctuator openBracket)) then between openBracket closeBracket item else return []

/-- Read the items that each come behind the given punctuator, at most `budget` of them. -/
def eachWithin (mark : Char) (item : Rule α) : Nat → Rule (List α)
  | 0 => return []
  | budget + 1 => do
    if (← accept (.punctuator mark)) then
      let first ← item
      let rest ← eachWithin mark item budget
      return first :: rest
    else return []

/-- Read the items that each come behind the given punctuator. -/
def each (mark : Char) (item : Rule α) : Rule (List α) := do
  eachWithin mark item (← get).length

/-- Read items with a separator between them, and possibly one in front. -/
def separated (mark : Char) (item : Rule α) : Rule (List α) := do
  let _ ← accept (.punctuator mark)
  let first ← item
  let rest ← each mark item
  return first :: rest

/-- Read items up to the end of the tokens, at most `budget` of them. -/
def untilEndWithin (item : Rule α) : Nat → Rule (List α)
  | 0 => return []
  | budget + 1 => do
    if (← get).isEmpty then return []
    let first ← item
    let rest ← untilEndWithin item budget
    return first :: rest

/-- Read items up to the end of the tokens, at least one. -/
def untilEnd (item : Rule α) : Rule (List α) := do
  let items ← untilEndWithin item (← get).length
  if items.isEmpty then failure else return items

/-- Read the whole list with a rule, leaving nothing. -/
def readAll? (rule : Rule α) (lexemes : List Lexeme) : Option α :=
  match rule.run lexemes with
  | some (a, []) => some a
  | _ => none

end Rule

end ResponseModels.GraphQL
