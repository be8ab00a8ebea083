import ResponseModels.Data.OrderedMap
import ResponseModels.GraphQL.Executable

/-! Cycles of fragment spreads: fragments that spread each other round in a circle can never
be expanded. -/
namespace ResponseModels

open GraphQL

/-- The fragments of a document by their names. -/
abbrev Fragments := OrderedMap Fragment

namespace Cycle

/-- The least name of a list, and nothing for an empty one. Names compare by code points. -/
def least? : List String → Option String
  | [] => none
  | name :: rest =>
    match least? rest with
    | none => some name
    | some other => if other < name then some other else some name

/-- A closed walk turned so that it starts, and ends, at its least name. All phases of one
cycle turn into the same walk. -/
def normalize (cycle : List String) : List String :=
  let round := cycle.dropLast
  match least? round with
  | none => []
  | some first =>
    round.dropWhile (· ≠ first) ++ round.takeWhile (· ≠ first) ++ [first]

/-- What a search has seen so far. -/
structure Search where
  /-- The fragments by which it has come, each spread by the one before. -/
  path : List String
  /-- Fragments whose spreads are being followed. -/
  visiting : List String
  /-- Fragments whose spreads have all been followed. -/
  done : List String
  /-- The cycles found, each as a closed walk, in the order of their discovery. -/
  found : List (List String)
  /-- The normal forms of the cycles found. -/
  seen : List (List String)
  deriving DecidableEq, Repr

namespace Search

def initial : Search := ⟨[], [], [], [], []⟩

/-- Start a path, with all that is known from others. -/
def restart (search : Search) : Search := { search with path := [], visiting := [] }

/-- Go on to a fragment. -/
def enter (search : Search) (name : String) : Search :=
  { search with path := search.path ++ [name], visiting := search.visiting.insert name }

/-- Come back from a fragment whose spreads have all been followed. -/
def leave (search : Search) (name : String) : Search :=
  { search with
    path := search.path.dropLast
    visiting := search.visiting.erase name
    done := search.done ++ [name] }

/-- Note a cycle, unless another phase of it has been noted. -/
def record (search : Search) (cycle : List String) : Search :=
  if search.seen.contains (normalize cycle) then search
  else
    { search with
      found := search.found ++ [cycle]
      seen := search.seen.insert (normalize cycle) }

/-- Follow the spreads of a fragment, going at most `budget` fragments deep. A fragment that is
being followed closes a cycle; one that was followed before is not followed again, and one that
is not defined has nothing to follow. -/
def visit (fragments : Fragments) : Nat → Search → String → Search
  | budget, search, name =>
    if search.visiting.contains name then
      search.record (search.path.dropWhile (· ≠ name) ++ [name])
    else if search.done.contains name then search
    else
      match fragments.get? name, budget with
      | some fragment, budget + 1 =>
        let after := (Selection.spreadsAll fragment.selections).foldl
          (visit fragments budget) (search.enter name)
        after.leave name
      | _, _ => search

/-- Visit fragments one after the other, each on a path of its own. -/
def visitAll (fragments : Fragments) (names : List String) : Search :=
  names.foldl (fun search name => visit fragments fragments.size search.restart name) .initial

end Search

/-- Cycles of spreads among the fragments. Where there is a cycle at all, at least one is
listed, and no cycle is listed in two phases. -/
def find (fragments : Fragments) : List (List String) :=
  (Search.visitAll fragments fragments.keys).found

end Cycle

end ResponseModels
