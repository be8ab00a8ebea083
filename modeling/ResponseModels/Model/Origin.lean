import ResponseModels.Source.Location

/-! What a model comes from. Nodes of a document are known by their locations; a fragment is
known by its location together with the fragments that were collected beneath it, as the same
fragment may take in different ones at different types. Messages and result parsers tell a
selection by its path instead. -/
namespace ResponseModels

/-- The response keys from an operation's name down to a selection. -/
structure ModelPath where
  segments : List String
  deriving DecidableEq, Repr, Inhabited

namespace ModelPath

def root (operation : String) : ModelPath := ⟨[operation]⟩

def child (path : ModelPath) (segment : String) : ModelPath := ⟨path.segments ++ [segment]⟩

def text (path : ModelPath) : String := ".".intercalate path.segments

end ModelPath

/-- Where a model comes from. The constructors stand in the order in which origins sort. -/
inductive Origin where
  /-- The class of one type case of a selection. -/
  | modelClass (type : String) (selection : List Location)
  /-- The condition is the written one, or that of the enclosing selection set. -/
  | inlineFragment (location : Location) (condition : String)
  | namedFragment (location : Location) (name : String)
  | operation (location : Location)
  | resultParser (selection : List Location)
  /-- The selection set of an operation, or that of the fields merged under one key. -/
  | selection (locations : List Location)
  /-- A selection seen at one possible type. -/
  | typeCase (type : String) (selection : List Location)
  deriving DecidableEq, Repr

namespace Origin

/-- Lists of locations sort like words. -/
def orderLocations : List Location → List Location → Ordering
  | [], [] => .eq
  | [], _ :: _ => .lt
  | _ :: _, [] => .gt
  | a :: as, b :: bs => (a.order b).then (orderLocations as bs)

def rank : Origin → Nat
  | modelClass .. => 0
  | inlineFragment .. => 1
  | namedFragment .. => 2
  | operation .. => 3
  | resultParser .. => 4
  | selection .. => 5
  | typeCase .. => 6

def order : Origin → Origin → Ordering
  | modelClass a as, modelClass b bs => (compare a b).then (orderLocations as bs)
  | inlineFragment a as, inlineFragment b bs => (a.order b).then (compare as bs)
  | namedFragment a as, namedFragment b bs => (a.order b).then (compare as bs)
  | operation a, operation b => a.order b
  | resultParser as, resultParser bs => orderLocations as bs
  | selection as, selection bs => orderLocations as bs
  | typeCase a as, typeCase b bs => (compare a b).then (orderLocations as bs)
  | a, b => compare a.rank b.rank

/-- The same origin with all files in their plainest spelling. -/
def plain : Origin → Origin
  | modelClass type locations => modelClass type (locations.map Location.plain)
  | inlineFragment location condition => inlineFragment location.plain condition
  | namedFragment location name => namedFragment location.plain name
  | operation location => operation location.plain
  | resultParser locations => resultParser (locations.map Location.plain)
  | selection locations => selection (locations.map Location.plain)
  | typeCase type locations => typeCase type (locations.map Location.plain)

end Origin

/-- An origin together with the keys of the fragments collected beneath it. -/
inductive OriginKey where
  | node (origin : Origin) (children : List OriginKey)
  deriving Repr

namespace OriginKey

def origin : OriginKey → Origin
  | node origin _ => origin

def children : OriginKey → List OriginKey
  | node _ children => children

/-- The key of an origin with nothing beneath it. -/
def leaf (origin : Origin) : OriginKey := node origin []

mutual

def decEq : (a b : OriginKey) → Decidable (a = b)
  | node origin children, node origin' children' =>
    if same : origin = origin' then
      match decEqList children children' with
      | isTrue equal => isTrue (by rw [same, equal])
      | isFalse differ => isFalse fun h => differ (by injection h)
    else isFalse fun h => same (by injection h)

def decEqList : (as bs : List OriginKey) → Decidable (as = bs)
  | [], [] => isTrue rfl
  | [], _ :: _ => isFalse nofun
  | _ :: _, [] => isFalse nofun
  | a :: as, b :: bs =>
    match decEq a b with
    | isFalse differ => isFalse fun h => differ (by injection h)
    | isTrue same =>
      match decEqList as bs with
      | isTrue equal => isTrue (by rw [same, equal])
      | isFalse differ => isFalse fun h => differ (by injection h)

end

instance : DecidableEq OriginKey := decEq

mutual

/-- Keys sort by what lies beneath them first, and by their own origin last. -/
def order : OriginKey → OriginKey → Ordering
  | node a as, node b bs => (orderList as bs).then (a.order b)

def orderList : List OriginKey → List OriginKey → Ordering
  | [], [] => .eq
  | [], _ :: _ => .lt
  | _ :: _, [] => .gt
  | a :: as, b :: bs => (order a b).then (orderList as bs)

end

mutual

/-- The same key with all files in their plainest spelling. -/
def plain : OriginKey → OriginKey
  | node origin children => node origin.plain (plainList children)

def plainList : List OriginKey → List OriginKey
  | [] => []
  | key :: rest => key.plain :: plainList rest

end

end OriginKey

end ResponseModels
