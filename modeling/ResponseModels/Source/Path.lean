import ResponseModels.Text.Basic

/-! Paths of source files. A path is printed exactly as it was given, while two
spellings of one path are told apart by their components only: repeated slashes, a
trailing slash and a `.` that is not the first component do not count. -/
namespace ResponseModels

/-- A path as it was given. -/
structure SourcePath where
  text : String
  deriving DecidableEq, Repr, Inhabited

namespace SourcePath

/-- One step of a path. The constructors stand in the order in which the steps sort. -/
inductive Component where
  | root
  | here
  | up
  | name (text : String)
  deriving DecidableEq, Repr

namespace Component

def rank : Component → Nat
  | root => 0
  | here => 1
  | up => 2
  | name _ => 3

/-- Steps of different kinds sort by kind, names among themselves by code points. -/
def order : Component → Component → Ordering
  | name a, name b => compare a b
  | a, b => compare a.rank b.rank

def text : Component → String
  | root => ""
  | here => "."
  | up => ".."
  | name text => text

/-- The step that a piece between two slashes stands for, if any, when it is not the
first piece of its path. -/
def ofPiece? : List Char → Option Component
  | [] => none
  | ['.'] => none
  | ['.', '.'] => some up
  | piece => some (name (String.ofList piece))

/-- The step that the first piece of a path stands for. A first piece that is empty
marks the root, provided that a slash follows it. -/
def ofFirstPiece? (more : Bool) : List Char → Option Component
  | [] => if more then some root else none
  | ['.'] => some here
  | piece => ofPiece? piece

end Component

/-- The steps of a path. -/
def components (path : SourcePath) : List Component :=
  match Text.segments '/' path.text.toList with
  | [] => []
  | first :: rest =>
    (Component.ofFirstPiece? (!rest.isEmpty) first).toList ++ rest.filterMap Component.ofPiece?

/-- Lists of steps sort step by step, and a beginning sorts before the whole. -/
def orderComponents : List Component → List Component → Ordering
  | [], [] => .eq
  | [], _ :: _ => .lt
  | _ :: _, [] => .gt
  | a :: as, b :: bs => (a.order b).then (orderComponents as bs)

def order (a b : SourcePath) : Ordering := orderComponents a.components b.components

/-- The plainest spelling of a path. Two paths have the same components exactly when
their plainest spellings are equal. -/
def plain (path : SourcePath) : SourcePath :=
  match path.components with
  | [.root] => ⟨"/"⟩
  | steps => ⟨"/".intercalate (steps.map Component.text)⟩

end SourcePath

end ResponseModels
