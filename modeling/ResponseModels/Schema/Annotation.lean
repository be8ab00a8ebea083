import ResponseModels.GraphQL.TypeExpr

/-! The declared type of a field or variable, with its list and non-null wrappers. -/
namespace ResponseModels

/-- A reference to a type by its name, with the place of the reference. -/
structure TypeRef where
  name : String
  location : Location
  deriving DecidableEq, Repr, Inhabited

/-- The same reference with its file in the plainest spelling. -/
def TypeRef.plain (ref : TypeRef) : TypeRef := { ref with location := ref.location.plain }

/-- A declared type. Every level says whether it may be null. -/
inductive Annotation where
  | list (item : Annotation) (nullable : Bool) (location : Location)
  | named (nullable : Bool) (type : TypeRef)
  deriving DecidableEq, Repr

namespace Annotation

/-- The annotation of a written type whose levels all carry the location `location`. A non-null
wrapper makes the level directly below it non-null. A second wrapper directly below the first
takes the pair out: what it wraps is read on its own. -/
def ofTypeExpr (location : Location) : GraphQL.TypeExpr → Annotation
  | .named name => .named true ⟨name, location⟩
  | .list item => .list (ofTypeExpr location item) true location
  | .nonNull (.named name) => .named false ⟨name, location⟩
  | .nonNull (.list item) => .list (ofTypeExpr location item) false location
  | .nonNull (.nonNull inner) => ofTypeExpr location inner

/-- The same annotation with all files in their plainest spelling. -/
def plain : Annotation → Annotation
  | .list item nullable location => .list item.plain nullable location.plain
  | .named nullable type => .named nullable type.plain

/-- May the outermost level be null? -/
def nullable : Annotation → Bool
  | .list _ nullable _ => nullable
  | .named nullable _ => nullable

/-- Where the annotation was written. -/
def location : Annotation → Location
  | .list _ _ location => location
  | .named _ type => type.location

/-- The type under all lists. -/
def innermost : Annotation → TypeRef
  | .list item _ _ => item.innermost
  | .named _ type => type

/-- May the type under all lists be null? -/
def innermostNullable : Annotation → Bool
  | .list item _ _ => item.innermostNullable
  | .named nullable _ => nullable

/-- The annotation as it is written in a schema. -/
def text : Annotation → String
  | .list item nullable _ => "[" ++ item.text ++ "]" ++ if nullable then "" else "!"
  | .named nullable type => type.name ++ if nullable then "" else "!"

end Annotation

end ResponseModels
