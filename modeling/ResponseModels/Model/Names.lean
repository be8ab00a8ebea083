import ResponseModels.Model.Origin
import ResponseModels.Model.Error

/-! Unique and stable names. What was named once keeps its name, whatever is proposed later;
what is new takes the proposed name, or that name with the least number that makes it free. -/
namespace ResponseModels

/-- The names given so far. Keys stand here with plainly spelled files, so that two spellings
of one file cannot lead to two names for one thing. -/
structure Names where
  assigned : List (OriginKey × String)
  maxSuffix : Nat
  /-- The names that are taken. -/
  reserved : List String
  deriving DecidableEq, Repr

namespace Names

def initial (maxSuffix : Nat) : Names := ⟨[], maxSuffix, []⟩

def nameOf? (names : Names) (key : OriginKey) : Option String :=
  names.assigned.lookup key.plain

/-- The first of the numbers `index`, `index + 1`, … that makes `stem` a free name, within
`tries` of them. -/
def firstNumbered? (taken : List String) (stem : String) : (tries index : Nat) → Option String
  | 0, _ => none
  | tries + 1, index =>
    let candidate := stem ++ toString index
    if taken.contains candidate then firstNumbered? taken stem tries (index + 1)
    else some candidate

/-- A free name made from the proposed one. -/
def firstFree? (names : Names) (proposed : String) : Option String :=
  if names.reserved.contains proposed then
    firstNumbered? names.reserved proposed names.maxSuffix 1
  else some proposed

/-- Give a key a name, which is taken from then on. -/
def assign (names : Names) (key : OriginKey) (name : String) : Names :=
  { names with
    assigned := names.assigned ++ [(key.plain, name)]
    reserved := names.reserved.insert name }

/-- The name of a key, and the names after asking for it. Nothing changes when no free name
is left. -/
def request (names : Names) (key : OriginKey) (proposed : String) :
    Except ModelError String × Names :=
  match names.nameOf? key with
  | some name => (.ok name, names)
  | none =>
    match names.firstFree? proposed with
    | some name => (.ok name, names.assign key name)
    | none => (.error (.namesExhausted proposed names.maxSuffix), names)

end Names

end ResponseModels
