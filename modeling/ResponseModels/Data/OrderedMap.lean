/-! Maps from names that keep the order in which their names first came in.
A schema's types, a type's fields and a graph's models are such maps: the order
is part of the value and shows in everything that is listed from it. -/
namespace ResponseModels

/-- A map from names to values, in the order of the names' first insertion. -/
structure OrderedMap (α : Type) where
  entries : List (String × α)
  deriving DecidableEq, Repr, Inhabited

namespace OrderedMap

variable {α β : Type}

def empty : OrderedMap α := ⟨[]⟩

/-- The value of the first entry under `key`. -/
def get? (m : OrderedMap α) (key : String) : Option α := m.entries.lookup key

def contains (m : OrderedMap α) (key : String) : Bool := (m.get? key).isSome

def keys (m : OrderedMap α) : List String := m.entries.map Prod.fst

def values (m : OrderedMap α) : List α := m.entries.map Prod.snd

def size (m : OrderedMap α) : Nat := m.entries.length

def isEmpty (m : OrderedMap α) : Bool := m.entries.isEmpty

theorem get?_cons (name : String) (value : α) (rest : List (String × α)) (key : String) :
    (⟨(name, value) :: rest⟩ : OrderedMap α).get? key =
      if key = name then some value else (⟨rest⟩ : OrderedMap α).get? key := by
  rw [get?, get?, List.lookup_cons]
  by_cases same : key = name
  · simp [same]
  · have differ : (key == name) = false := by simpa using same
    simp [differ, same]

theorem get?_eq_none_iff (m : OrderedMap α) (key : String) :
    m.get? key = none ↔ key ∉ m.keys := by
  obtain ⟨entries⟩ := m
  induction entries with
  | nil => simp [get?, keys]
  | cons entry rest ih =>
    obtain ⟨name, value⟩ := entry
    rw [get?_cons, keys, List.map_cons, List.mem_cons, not_or]
    by_cases same : key = name
    · simp [same]
    · rw [if_neg same, ih]
      exact ⟨fun h => ⟨same, h⟩, fun h => h.2⟩

theorem contains_eq_true_iff (m : OrderedMap α) (key : String) :
    m.contains key = true ↔ key ∈ m.keys := by
  rw [contains, Option.isSome_iff_ne_none, ne_eq, get?_eq_none_iff, Decidable.not_not]

/-- Put `value` in place of what stands under `key`, keeping the key's position.
Nothing changes when the key is absent. -/
def replace (m : OrderedMap α) (key : String) (value : α) : OrderedMap α :=
  ⟨m.entries.map fun entry => if entry.1 = key then (key, value) else entry⟩

/-- A known key keeps its position and takes the new value; a new key comes last. -/
def insert (m : OrderedMap α) (key : String) (value : α) : OrderedMap α :=
  if m.contains key then m.replace key value else ⟨m.entries ++ [(key, value)]⟩

/-- Insert the entries one after the other into an empty map. -/
def ofList (entries : List (String × α)) : OrderedMap α :=
  entries.foldl (fun m entry => m.insert entry.1 entry.2) empty

theorem keys_replace (m : OrderedMap α) (key : String) (value : α) :
    (m.replace key value).keys = m.keys := by
  obtain ⟨entries⟩ := m
  simp only [replace, keys, List.map_map]
  apply List.map_congr_left
  intro entry _
  by_cases same : entry.1 = key <;> simp [same]

/-- Inserting adds a new key at the end and leaves the keys alone otherwise. -/
theorem keys_insert (m : OrderedMap α) (key : String) (value : α) :
    (m.insert key value).keys = if key ∈ m.keys then m.keys else m.keys ++ [key] := by
  by_cases known : key ∈ m.keys
  · rw [insert, if_pos ((m.contains_eq_true_iff key).mpr known), keys_replace, if_pos known]
  · have absent : ¬ m.contains key = true := fun h => known ((m.contains_eq_true_iff key).mp h)
    rw [insert, if_neg absent, if_neg known]
    simp [keys]

theorem get?_replace (m : OrderedMap α) (key other : String) (value : α) :
    (m.replace key value).get? other =
      if other = key then (m.get? other).map fun _ => value else m.get? other := by
  obtain ⟨entries⟩ := m
  induction entries with
  | nil => by_cases same : other = key <;> simp [replace, get?, same]
  | cons entry rest ih =>
    obtain ⟨name, found⟩ := entry
    simp only [replace, List.map_cons] at ih ⊢
    by_cases same : name = key
    · subst same
      rw [if_pos rfl, get?_cons, get?_cons, ih]
      by_cases here : other = name <;> simp [here]
    · rw [if_neg same, get?_cons, get?_cons, ih]
      by_cases here : other = name
      · subst here
        simp [same]
      · simp [here]

/-- A look-up after an insertion finds the new value under its key, and what was there before
under every other key. -/
theorem get?_insert (m : OrderedMap α) (key other : String) (value : α) :
    (m.insert key value).get? other = if other = key then some value else m.get? other := by
  rw [insert]
  split
  · rename_i known
    rw [get?_replace]
    split
    · rename_i same
      obtain ⟨found, h⟩ := Option.isSome_iff_exists.mp known
      rw [same, h, Option.map_some]
    · rfl
  · rename_i absent
    have none : m.get? key = none := by simpa [contains] using absent
    obtain ⟨entries⟩ := m
    simp only [get?] at none ⊢
    rw [List.lookup_append]
    by_cases same : other = key
    · simp [same, none]
    · have differ : (other == key) = false := by simpa using same
      simp [List.lookup_cons, differ, same]

theorem nodup_keys_insert (m : OrderedMap α) (key : String) (value : α) (h : m.keys.Nodup) :
    (m.insert key value).keys.Nodup := by
  rw [keys_insert]
  split
  · exact h
  · rename_i absent
    rw [List.nodup_append]
    refine ⟨h, by simp, ?_⟩
    intro a known b new same
    rw [List.mem_singleton] at new
    exact absent (new ▸ same ▸ known)

/-- Entries with distinct keys are a map as they stand. -/
theorem ofList_eq (entries : List (String × α)) (h : (entries.map Prod.fst).Nodup) :
    ofList entries = ⟨entries⟩ := by
  have step : ∀ (front back : List (String × α)), ((front ++ back).map Prod.fst).Nodup →
      back.foldl (fun m entry => m.insert entry.1 entry.2) (⟨front⟩ : OrderedMap α) =
        ⟨front ++ back⟩ := by
    intro front back
    induction back generalizing front with
    | nil => simp
    | cons entry rest ih =>
      intro distinct
      have absent : ¬ (⟨front⟩ : OrderedMap α).contains entry.1 = true := by
        rw [contains_eq_true_iff, keys]
        intro known
        rw [List.map_append, List.nodup_append] at distinct
        exact distinct.2.2 _ known entry.1 (by simp) rfl
      rw [List.foldl_cons, insert, if_neg absent, ih (front ++ [entry]) (by simpa using distinct)]
      simp
  simpa [ofList, empty] using step [] entries (by simpa using h)

end OrderedMap

end ResponseModels
