import ResponseModels.Source.Path

/-! Where a thing was written. Locations do two jobs: they are shown in error messages,
and, as nodes of a document have no identity of their own, they tell such nodes apart. -/
namespace ResponseModels

/-- A place in one text, counted from one. -/
structure Position where
  line : Nat
  column : Nat
  deriving DecidableEq, Repr, Inhabited

namespace Position

/-- Where a text begins. -/
def start : Position := ⟨1, 1⟩

def right (p : Position) (columns : Nat) : Position := { p with column := p.column + columns }

def nextLine (p : Position) : Position := ⟨p.line + 1, 1⟩

/-- The place right after `text`, when `text` begins at the given place. -/
def after (p : Position) (text : List Char) : Position :=
  text.foldl (fun q c => if c = '\n' then q.nextLine else q.right 1) p

end Position

/-- A place in a file. -/
structure FilePosition where
  column : Nat
  file : SourcePath
  line : Nat
  deriving DecidableEq, Repr, Inhabited

namespace FilePosition

def ofPosition (file : SourcePath) (p : Position) : FilePosition := ⟨p.column, file, p.line⟩

def text (p : FilePosition) : String :=
  p.file.text ++ ":" ++ toString p.line ++ ":" ++ toString p.column

/-- Places sort by column, then by file, then by line. -/
def order (a b : FilePosition) : Ordering :=
  ((compare a.column b.column).then (a.file.order b.file)).then (compare a.line b.line)

def plain (p : FilePosition) : FilePosition := { p with file := p.file.plain }

end FilePosition

/-- Where a definition, a reference or a selection comes from. Text of a schema that was
loaded without a file has no finer location than that. -/
inductive Location where
  | builtIn
  | document (position : FilePosition)
  | schema
  | schemaFile (position : FilePosition)
  deriving DecidableEq, Repr, Inhabited

namespace Location

/-- The location of a place in the text of a schema. -/
def ofSchema (file : Option SourcePath) (p : Position) : Location :=
  match file with
  | some file => .schemaFile (.ofPosition file p)
  | none => .schema

/-- The location of a place in the text of a document. -/
def ofDocument (file : SourcePath) (p : Position) : Location := .document (.ofPosition file p)

def filePosition? : Location → Option FilePosition
  | .document p => some p
  | .schemaFile p => some p
  | .builtIn => none
  | .schema => none

def text : Location → String
  | .builtIn => "<graphql built-in>"
  | .schema => "<schema>"
  | .document p => p.text
  | .schemaFile p => p.text

def rank : Location → Nat
  | .builtIn => 0
  | .document _ => 1
  | .schema => 2
  | .schemaFile _ => 3

/-- Locations of different kinds sort by kind, those of one kind by their place. -/
def order : Location → Location → Ordering
  | .document a, .document b => a.order b
  | .schemaFile a, .schemaFile b => a.order b
  | a, b => compare a.rank b.rank

/-- The same location with its file in the plainest spelling. -/
def plain : Location → Location
  | .document p => .document p.plain
  | .schemaFile p => .schemaFile p.plain
  | .builtIn => .builtIn
  | .schema => .schema

end Location

end ResponseModels
