import ResponseModels.Data.OrderedMap
import Mathlib.Data.List.Nodup

/-! Looking up entries of association lists and of ordered maps, and lists that take in only the
first item of each key. -/
namespace ResponseModels

namespace Association

variable {α β : Type} [BEq α] [LawfulBEq α] {entries : List (α × β)} {key : α} {value : β}

theorem mem_of_lookup (h : entries.lookup key = some value) : (key, value) ∈ entries := by
  rw [List.lookup_eq_some_iff] at h
  obtain ⟨front, back, rfl, _⟩ := h
  simp

theorem lookup_isSome_of_mem (h : (key, value) ∈ entries) :
    ∃ found, entries.lookup key = some found := by
  cases hFound : entries.lookup key with
  | some found => exact ⟨found, rfl⟩
  | none =>
      rw [List.lookup_eq_none_iff] at hFound
      simpa using hFound _ h

/-- With distinct keys every entry is found under its key. -/
theorem lookup_of_mem (hKeys : (entries.map Prod.fst).Nodup) (h : (key, value) ∈ entries) :
    entries.lookup key = some value := by
  obtain ⟨found, hFound⟩ := lookup_isSome_of_mem h
  have hSame : ((key, found) : α × β) = (key, value) :=
    List.inj_on_of_nodup_map hKeys (mem_of_lookup hFound) h rfl
  rw [hFound, (Prod.mk.inj hSame).2]

/-- Keys may be renamed one to one. -/
theorem lookup_map {α' β' : Type} [BEq α'] [LawfulBEq α'] {rename : α → α'}
    (hRename : Function.Injective rename) (change : β → β') (entries : List (α × β)) (key : α) :
    (entries.map (Prod.map rename change)).lookup (rename key) =
      (entries.lookup key).map change := by
  induction entries with
  | nil => rfl
  | cons entry rest ih =>
      obtain ⟨name, value⟩ := entry
      rw [List.map_cons, Prod.map_apply, List.lookup_cons, List.lookup_cons, ih]
      by_cases hSame : key = name
      · simp [hSame]
      · have hDiffer : rename key ≠ rename name := hRename.ne hSame
        rw [beq_eq_false_iff_ne.mpr hSame, beq_eq_false_iff_ne.mpr hDiffer]

/-- Items are taken in behind those there were, unless their key is there already. None goes
missing by its key. -/
theorem keepFirst_spec (keyOf : β → α) (items extra : List β) :
    ∃ more, extra.foldl (fun all item =>
        if all.any (keyOf · == keyOf item) then all else all ++ [item]) items = items ++ more ∧
      more ⊆ extra ∧ ∀ item ∈ extra, ∃ kept ∈ items ++ more, keyOf kept = keyOf item := by
  induction extra generalizing items with
  | nil => exact ⟨[], by simp⟩
  | cons first rest ih =>
      rw [List.foldl_cons]
      split
      · rename_i hKnown
        obtain ⟨more, hMore, hSubset, hKept⟩ := ih items
        refine ⟨more, hMore, fun item hItem => List.mem_cons_of_mem _ (hSubset hItem), ?_⟩
        intro item hItem
        rcases List.mem_cons.mp hItem with rfl | hItem
        · obtain ⟨known, hMem, hKey⟩ := List.any_eq_true.mp hKnown
          exact ⟨known, List.mem_append_left _ hMem, eq_of_beq hKey⟩
        · exact hKept item hItem
      · obtain ⟨more, hMore, hSubset, hKept⟩ := ih (items ++ [first])
        rw [List.append_assoc] at hMore hKept
        refine ⟨first :: more, hMore, ?_, ?_⟩
        · exact List.cons_subset.mpr ⟨List.mem_cons_self,
            fun item hItem => List.mem_cons_of_mem _ (hSubset hItem)⟩
        · intro item hItem
          rcases List.mem_cons.mp hItem with rfl | hItem
          · exact ⟨item, by simp, rfl⟩
          · exact hKept item hItem

end Association

namespace OrderedMap

variable {α : Type} {m : OrderedMap α} {key : String} {value : α}

theorem mem_entries_of_get? (h : m.get? key = some value) : (key, value) ∈ m.entries :=
  Association.mem_of_lookup h

theorem mem_keys_of_get? (h : m.get? key = some value) : key ∈ m.keys :=
  List.mem_map.mpr ⟨(key, value), mem_entries_of_get? h, rfl⟩

theorem get?_of_mem_entries (hKeys : m.keys.Nodup) (h : (key, value) ∈ m.entries) :
    m.get? key = some value :=
  Association.lookup_of_mem hKeys h

theorem mem_values_of_get? (h : m.get? key = some value) : value ∈ m.values :=
  List.mem_map.mpr ⟨(key, value), mem_entries_of_get? h, rfl⟩

theorem mem_values_replace {other : α} (h : other ∈ (m.replace key value).values) :
    other = value ∨ other ∈ m.values := by
  simp only [replace, values, List.map_map] at h
  obtain ⟨entry, hEntry, rfl⟩ := List.mem_map.mp h
  by_cases hSame : entry.1 = key
  · simp [hSame]
  · right
    rw [Function.comp_apply, if_neg hSame]
    exact List.mem_map.mpr ⟨entry, hEntry, rfl⟩

theorem mem_values_insert {other : α} (h : other ∈ (m.insert key value).values) :
    other = value ∨ other ∈ m.values := by
  rw [insert] at h
  split at h
  · exact mem_values_replace h
  · rw [values, List.map_append, List.mem_append] at h
    rcases h with hOld | hNew
    · exact .inr hOld
    · exact .inl (List.mem_singleton.mp hNew)

/-- Rename the keys and change the values, in place. -/
def mapEntries {β : Type} (rename : String → String) (change : α → β) (m : OrderedMap α) :
    OrderedMap β :=
  ⟨m.entries.map (Prod.map rename change)⟩

section Mapping

variable {β : Type} {rename : String → String} (hRename : Function.Injective rename)
  (change : α → β)

include hRename

theorem get?_mapEntries (m : OrderedMap α) (key : String) :
    (m.mapEntries rename change).get? (rename key) = (m.get? key).map change :=
  Association.lookup_map hRename change m.entries key

theorem contains_mapEntries (m : OrderedMap α) (key : String) :
    (m.mapEntries rename change).contains (rename key) = m.contains key := by
  rw [contains, get?_mapEntries hRename, Option.isSome_map, contains]

theorem mapEntries_replace (m : OrderedMap α) (key : String) (value : α) :
    (m.replace key value).mapEntries rename change =
      (m.mapEntries rename change).replace (rename key) (change value) := by
  simp only [replace, mapEntries, List.map_map]
  congr 1
  apply List.map_congr_left
  intro entry _
  by_cases hSame : entry.1 = key
  · simp [hSame]
  · simp [hSame, hRename.ne hSame]

theorem mapEntries_insert (m : OrderedMap α) (key : String) (value : α) :
    (m.insert key value).mapEntries rename change =
      (m.mapEntries rename change).insert (rename key) (change value) := by
  rw [insert, insert, contains_mapEntries hRename]
  split
  · exact mapEntries_replace hRename change m key value
  · simp [mapEntries]

theorem mapEntries_ofList (entries : List (String × α)) :
    (ofList entries).mapEntries rename change =
      ofList (entries.map (Prod.map rename change)) := by
  have hFold : ∀ m : OrderedMap α,
      (entries.foldl (fun m entry => m.insert entry.1 entry.2) m).mapEntries rename change =
        (entries.map (Prod.map rename change)).foldl (fun m entry => m.insert entry.1 entry.2)
          (m.mapEntries rename change) := by
    induction entries with
    | nil => exact fun _ => rfl
    | cons entry rest ih =>
        intro m
        rw [List.foldl_cons, ih, mapEntries_insert hRename]
        rfl
  exact hFold .empty

end Mapping

/-- Change every value. -/
def mapValues {β : Type} (change : α → β) (m : OrderedMap α) : OrderedMap β :=
  m.mapEntries id change

section MappingValues

variable {β : Type} (change : α → β)

theorem keys_mapValues (m : OrderedMap α) : (m.mapValues change).keys = m.keys := by
  simp [mapValues, mapEntries, keys]

theorem values_mapValues (m : OrderedMap α) :
    (m.mapValues change).values = m.values.map change := by
  simp [mapValues, mapEntries, values]

theorem get?_mapValues (m : OrderedMap α) (key : String) :
    (m.mapValues change).get? key = (m.get? key).map change :=
  get?_mapEntries Function.injective_id change m key

theorem mapValues_ofList (entries : List (String × α)) :
    (ofList entries).mapValues change = ofList (entries.map (Prod.map id change)) :=
  mapEntries_ofList Function.injective_id change entries

end MappingValues

end OrderedMap

/-- Every value stands under its own name, and no name occurs twice. -/
structure OrderedMap.Keyed {α : Type} (m : OrderedMap α) (name : α → String) : Prop where
  nodup : m.keys.Nodup
  name_eq : ∀ entry ∈ m.entries, name entry.2 = entry.1

namespace OrderedMap.Keyed

variable {α : Type} {m : OrderedMap α} {name : α → String} {key : String} {value : α}

theorem empty (name : α → String) : (OrderedMap.empty : OrderedMap α).Keyed name :=
  ⟨List.nodup_nil, fun _ h => absurd h List.not_mem_nil⟩

theorem name_of_get? (h : m.Keyed name) (hGet : m.get? key = some value) : name value = key :=
  h.name_eq _ (mem_entries_of_get? hGet)

theorem get?_name (h : m.Keyed name) (hMem : value ∈ m.values) :
    m.get? (name value) = some value := by
  obtain ⟨⟨key, found⟩, hEntry, rfl⟩ := List.mem_map.mp hMem
  rw [h.name_eq _ hEntry]
  exact get?_of_mem_entries h.nodup hEntry

/-- The names of a map's values, in order, are its keys. -/
theorem map_name_values (h : m.Keyed name) : m.values.map name = m.keys := by
  unfold OrderedMap.keys OrderedMap.values
  rw [List.map_map]
  exact List.map_congr_left fun entry hEntry => h.name_eq entry hEntry

theorem replace (h : m.Keyed name) (hName : name value = key) :
    (m.replace key value).Keyed name := by
  refine ⟨by rw [keys_replace]; exact h.nodup, ?_⟩
  intro entry hEntry
  obtain ⟨old, hOld, rfl⟩ := List.mem_map.mp hEntry
  by_cases hSame : old.1 = key
  · rw [if_pos hSame]
    exact hName
  · rw [if_neg hSame]
    exact h.name_eq old hOld

theorem insert (h : m.Keyed name) (hName : name value = key) :
    (m.insert key value).Keyed name := by
  refine ⟨nodup_keys_insert m key value h.nodup, ?_⟩
  intro entry hEntry
  rw [OrderedMap.insert] at hEntry
  split at hEntry
  · exact (h.replace hName).name_eq entry hEntry
  · rcases List.mem_append.mp hEntry with hOld | hNew
    · exact h.name_eq entry hOld
    · rw [List.mem_singleton] at hNew
      rw [hNew]
      exact hName

end OrderedMap.Keyed

end ResponseModels
