import ResponseModels.Data.OrderedMap

/-! Plain data: what schemas, configurations and model graphs are written to and read from. -/
namespace ResponseModels

/-- A value of plain data. A number that is not whole is kept apart, as nothing here accepts
one. -/
inductive Datum where
  | null
  | bool (value : Bool)
  | int (value : Int)
  | fraction
  | string (value : String)
  | array (items : List Datum)
  | record (members : List (String × Datum))
  deriving Repr, Inhabited

namespace Datum

mutual

/-- How deep lists and records lie inside each other. -/
def depth : Datum → Nat
  | .array items => depthOfItems items + 1
  | .record members => depthOfMembers members + 1
  | _ => 0

def depthOfItems : List Datum → Nat
  | [] => 0
  | item :: rest => max item.depth (depthOfItems rest)

def depthOfMembers : List (String × Datum) → Nat
  | [] => 0
  | (_, item) :: rest => max item.depth (depthOfMembers rest)

end

/-- Nothing is written as `null`. -/
def ofOption {α : Type} (write : α → Datum) : Option α → Datum
  | some value => write value
  | none => .null

/-- An ordered map is written as the list of its pairs. -/
def ofMap {α : Type} (write : α → Datum) (m : OrderedMap α) : Datum :=
  .array (m.entries.map fun entry => .array [.string entry.1, write entry.2])

/-- One of several cases with contents: a record with the name of the case as its only
member. -/
def tagged (tag : String) (content : Datum) : Datum := .record [(tag, content)]

def string? : Datum → Option String
  | .string value => some value
  | _ => none

def bool? : Datum → Option Bool
  | .bool value => some value
  | _ => none

/-- A whole number from zero up to the given bound. -/
def nat? (bound : Nat) : Datum → Option Nat
  | .int value => if 0 ≤ value ∧ value ≤ bound then some value.toNat else none
  | _ => none

def array? : Datum → Option (List Datum)
  | .array items => some items
  | _ => none

/-- The case and its contents. A case without contents may be a bare string, or have `null` as
its contents. -/
def tagged? : Datum → Option (String × Datum)
  | .string tag => some (tag, .null)
  | .record [(tag, content)] => some (tag, content)
  | _ => none

/-- The members of a record with the given names, in that order. Further members do not
count. -/
def named? (names : List String) : Datum → Option (List (Option Datum))
  | .record members => some (names.map (List.lookup · members))
  | _ => none

/-- The members of a structure with the given member names, in that order. A structure is a
record or the list of all its members' values. One that has ordered maps among its members is
a record only, as it takes the name of a member to tell a map from a plain list. -/
def members? (names : List String) : Datum → Option (List (Option Datum))
  | .array items => if items.length = names.length then some (items.map some) else none
  | datum => datum.named? names

/-- A member that may be missing or `null`. -/
def optional? {α : Type} (read : Datum → Option α) : Option Datum → Option (Option α)
  | none => some none
  | some .null => some none
  | some datum => (read datum).map some

/-- A pair of a key and a value. -/
def pair? {α : Type} (read : Datum → Option α) : Datum → Option (String × α)
  | .array [.string key, value] => (read value).map (key, ·)
  | _ => none

/-- An ordered map, from the list of its pairs. -/
def map? {α : Type} (read : Datum → Option α) (datum : Datum) : Option (OrderedMap α) := do
  return .ofList (← (← datum.array?).mapM (pair? read))

def list? {α : Type} (read : Datum → Option α) (datum : Datum) : Option (List α) := do
  (← datum.array?).mapM read

end Datum

end ResponseModels
