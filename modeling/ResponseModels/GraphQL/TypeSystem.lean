import ResponseModels.GraphQL.TypeExpr
import ResponseModels.GraphQL.Argument
import ResponseModels.GraphQL.Lexer

/-! Type definitions, type extensions and schema blocks as they are written. -/
namespace ResponseModels.GraphQL

/-- A field of an object or interface type. The place of a described field is that of its
description. -/
structure FieldDecl where
  position : Position
  description : Option String
  name : String
  type : TypeExpr
  deriving DecidableEq, Repr

/-- A field of an input type. -/
structure InputDecl where
  position : Position
  name : String
  type : TypeExpr
  deriving DecidableEq, Repr

/-- What a type definition or extension lists. -/
inductive TypeBody where
  | scalar
  | object (interfaces : List String) (fields : List FieldDecl)
  | interface (interfaces : List String) (fields : List FieldDecl)
  | union (members : List String)
  | enum (values : List String)
  | input (fields : List InputDecl)
  deriving DecidableEq, Repr

/-- A type definition or extension. Its place is that of the keyword for its kind. -/
structure TypeDecl where
  position : Position
  description : Option String
  name : String
  body : TypeBody
  deriving DecidableEq, Repr

/-- The root types that a schema block names. -/
structure RootsDecl where
  position : Position
  query : Option String
  mutation : Option String
  subscription : Option String
  deriving DecidableEq, Repr

/-- One definition in the text of a schema. Directive definitions leave nothing behind. -/
inductive SchemaItem where
  | roots (decl : RootsDecl)
  | define (decl : TypeDecl)
  | extend (decl : TypeDecl)
  | directive
  deriving DecidableEq, Repr

/-- Read a description, if there is one. -/
def description : Rule (Option String) := do
  match (← Rule.peek) with
  | some (.string text) =>
    let _ ← Rule.next
    return some text
  | _ => return none

/-- Read a field of an input type, or an argument definition. -/
def inputDecl : Rule InputDecl := do
  let position ← Rule.here
  let _ ← description
  let name ← Rule.name
  Rule.punctuator ':'
  let type ← TypeExpr.rule
  defaultValue
  let _ ← directives
  return ⟨position, name, type⟩

/-- Read a field of an object or interface type. -/
def fieldDecl : Rule FieldDecl := do
  let position ← Rule.here
  let description ← description
  let name ← Rule.name
  let _ ← Rule.optional '(' ')' inputDecl
  Rule.punctuator ':'
  let type ← TypeExpr.rule
  let _ ← directives
  return ⟨position, description, name, type⟩

/-- Read one value of an enum type. -/
def enumValue : Rule String := do
  let _ ← description
  let name ← Rule.name
  let _ ← directives
  return name

/-- Read the interfaces that a type implements. -/
def implementedInterfaces : Rule (List String) := do
  if (← Rule.accept (.name "implements")) then Rule.separated '&' Rule.name else return []

/-- Read the members of a union. -/
def unionMembers : Rule (List String) := do
  if (← Rule.accept (.punctuator '=')) then Rule.separated '|' Rule.name else return []

/-- Read a type behind the keyword for its kind, and tell whether it lists anything that
would make an extension worth writing. Interfaces alone do not, in an interface. -/
def typeRule (word : String) (position : Position) (description : Option String) :
    Rule (TypeDecl × Bool) := do
  let name ← Rule.name
  let decl := fun body => (⟨position, description, name, body⟩ : TypeDecl)
  match word with
  | "scalar" =>
    let directed ← directives
    return (decl .scalar, directed)
  | "type" =>
    let interfaces ← implementedInterfaces
    let directed ← directives
    let fields ← Rule.optional '\x7b' '\x7d' fieldDecl
    return (decl (.object interfaces fields), directed || !interfaces.isEmpty || !fields.isEmpty)
  | "interface" =>
    let interfaces ← implementedInterfaces
    let directed ← directives
    let fields ← Rule.optional '\x7b' '\x7d' fieldDecl
    return (decl (.interface interfaces fields), directed || !fields.isEmpty)
  | "union" =>
    let directed ← directives
    let members ← unionMembers
    return (decl (.union members), directed || !members.isEmpty)
  | "enum" =>
    let directed ← directives
    let values ← Rule.optional '\x7b' '\x7d' enumValue
    return (decl (.enum values), directed || !values.isEmpty)
  | "input" =>
    let directed ← directives
    let fields ← Rule.optional '\x7b' '\x7d' inputDecl
    return (decl (.input fields), directed || !fields.isEmpty)
  | _ => failure

/-- The root type that a schema block names for one kind of operation. Naming it twice, or
naming something else, is refused. -/
def addRoot? (roots : RootsDecl) (entry : String × String) : Option RootsDecl :=
  match entry.1, roots with
  | "query", ⟨_, none, _, _⟩ => some { roots with query := some entry.2 }
  | "mutation", ⟨_, _, none, _⟩ => some { roots with mutation := some entry.2 }
  | "subscription", ⟨_, _, _, none⟩ => some { roots with subscription := some entry.2 }
  | _, _ => none

/-- Read a schema block behind its keyword. -/
def rootsRule (position : Position) : Rule RootsDecl := do
  let _ ← directives
  Rule.punctuator '\x7b'
  let entries ← Rule.many '\x7d' (do
    let kind ← Rule.name
    Rule.punctuator ':'
    return (kind, ← Rule.name))
  match entries.foldlM addRoot? ⟨position, none, none, none⟩ with
  | some roots => return roots
  | none => failure

/-- The places where a directive may be used. -/
def directiveLocations : List String := [
  "QUERY", "MUTATION", "SUBSCRIPTION", "FIELD", "FRAGMENT_DEFINITION", "FRAGMENT_SPREAD",
  "INLINE_FRAGMENT", "SCHEMA", "SCALAR", "OBJECT", "FIELD_DEFINITION", "ARGUMENT_DEFINITION",
  "INTERFACE", "UNION", "ENUM", "ENUM_VALUE", "INPUT_OBJECT", "INPUT_FIELD_DEFINITION",
  "VARIABLE_DEFINITION"]

def directiveLocation : Rule Unit := do
  if directiveLocations.contains (← Rule.name) then return () else failure

/-- Read a directive definition behind its keyword. -/
def directiveRule : Rule Unit := do
  Rule.punctuator '@'
  let _ ← Rule.name
  let _ ← Rule.optional '(' ')' inputDecl
  let _ ← Rule.accept (.name "repeatable")
  Rule.keyword "on"
  if (← Rule.atName) || (← Rule.at? (.punctuator '|')) then
    let _ ← Rule.separated '|' directiveLocation

/-- Read one definition. Only types and directives can be described, and an extension has to
add something. -/
def schemaItem : Rule SchemaItem := do
  let description ← description
  let position ← Rule.here
  let word ← Rule.name
  match word with
  | "schema" => if description.isSome then failure else return .roots (← rootsRule position)
  | "extend" =>
    if description.isSome then failure
    let position ← Rule.here
    let word ← Rule.name
    let (decl, adds) ← typeRule word position none
    if adds then return .extend decl else failure
  | "directive" =>
    directiveRule
    return .directive
  | _ =>
    let (decl, _) ← typeRule word position description
    return .define decl

/-- The definitions in the text of a schema, or nothing when it is no schema. -/
def readTypeSystem? (text : String) : Option (List SchemaItem) :=
  (tokens? text).bind (Rule.untilEnd schemaItem).readAll?

end ResponseModels.GraphQL
