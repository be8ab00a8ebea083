import ResponseModels.Document.Cycle
import ResponseModels.Source.Files

/-! Documents: operations, and the fragments that they may spread. -/
namespace ResponseModels

open GraphQL

/-- What can be wrong with a document. -/
inductive DocumentError where
  | duplicateFragment (name : String) (first second : Location)
  | fragmentCycle (path : List String)
  | malformed (file : SourcePath)
  | unreadable (file : SourcePath) (failure : ReadFailure)
  deriving DecidableEq, Repr

namespace DocumentError

def message : DocumentError → String
  | duplicateFragment name _ _ => s!"Multiple fragments named `{name}` were defined"
  | fragmentCycle path => "Fragment cycle detected: " ++ " -> ".intercalate path
  | malformed file => s!"Error parsing executable document `{file.text}`"
  | unreadable file failure =>
    s!"Failure while reading the document file `{file.text}`: {failure.message}"

end DocumentError

/-- A document whose fragments have names of their own and no cycles of spreads. -/
structure Document where
  file : SourcePath
  fragments : Fragments
  operations : List Operation

namespace Document

/-- The location of a place in the document. -/
def locate (document : Document) (p : Position) : Location := .ofDocument document.file p

def fragment? (document : Document) (name : String) : Option Fragment :=
  document.fragments.get? name

/-- The first operation of the given name. Operations without a name are never found. -/
def operation? (document : Document) (name : String) : Option Operation :=
  document.operations.find? (·.name == some name)

/-- The fragments that the operations spread, directly or through other fragments. -/
def reachedFragments (document : Document) : List Fragment :=
  let spreads := Selection.spreadsAll (document.operations.flatMap Operation.selections)
  (Cycle.Search.visitAll document.fragments spreads).done.filterMap document.fragment?

/-- The selections of the operations and of the fragments they lead to, nested ones counted. -/
def reachedCount (document : Document) : Nat :=
  Selection.countAll (document.operations.flatMap Operation.selections) +
    Selection.countAll (document.reachedFragments.flatMap Fragment.selections)

def operationsOf (items : List ExecutableItem) : List Operation :=
  items.filterMap fun
    | .operation operation => some operation
    | .fragment _ => none

def fragmentsOf (items : List ExecutableItem) : List Fragment :=
  items.filterMap fun
    | .operation _ => none
    | .fragment fragment => some fragment

/-- Add a fragment under a name that is not taken. -/
def addFragment (file : SourcePath) (fragments : Fragments) (fragment : Fragment) :
    Except DocumentError Fragments :=
  match fragments.get? fragment.name with
  | some earlier =>
    .error (.duplicateFragment fragment.name (.ofDocument file earlier.position)
      (.ofDocument file fragment.position))
  | none => .ok (fragments.insert fragment.name fragment)

/-- Fragments by their names, provided that the names differ and no spreads form a cycle. -/
def collectFragments (file : SourcePath) (definitions : List Fragment) :
    Except DocumentError Fragments := do
  let fragments ← definitions.foldlM (addFragment file) .empty
  match Cycle.find fragments with
  | cycle :: _ => throw (.fragmentCycle cycle)
  | [] => return fragments

/-- The document of a list of definitions. -/
def ofItems (file : SourcePath) (items : List ExecutableItem) : Except DocumentError Document := do
  return ⟨file, ← collectFragments file (fragmentsOf items), operationsOf items⟩

/-- The document of a text. -/
def ofText (file : SourcePath) (text : String) : Except DocumentError Document :=
  match readExecutable? text with
  | some items => ofItems file items
  | none => .error (.malformed file)

/-- The document in a file. -/
def ofFile (files : Files) (path : SourcePath) : Except DocumentError Document :=
  match files.read path with
  | .error failure => .error (.unreadable path failure)
  | .ok text => ofText path text

/-- The path that stands for the file of a document that comes from none. Counting such
documents keeps the locations of different ones apart. -/
def unnamedPath (number : Nat) : SourcePath := ⟨"str://" ++ toString number⟩

end Document

end ResponseModels
