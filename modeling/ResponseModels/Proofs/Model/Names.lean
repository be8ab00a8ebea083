import ResponseModels.Model.Names
import ResponseModels.Proofs.Data.Association

/-! Names are given one to one. Whatever is asked for, and in whatever order, two keys that were
given the same name are the same up to the spelling of their files, what was named keeps its name,
and the names that are taken are those that were given. Keys whose locations all lie in one file are told apart by their names altogether. -/
namespace ResponseModels

/-- Names that come about by asking for them one after the other, starting from none. -/
inductive Names.Reached : Names → Prop where
  | initial (maxSuffix : Nat) : Reached (Names.initial maxSuffix)
  | request {names : Names} (prior : Reached names) (key : OriginKey) (proposed : String) :
      Reached (names.request key proposed).2

/-- Every key is named once, no two keys have the same name, and the names that are taken are those
that were given. -/
structure Names.Distinct (names : Names) : Prop where
  keys : (names.assigned.map Prod.fst).Nodup
  given : (names.assigned.map Prod.snd).Nodup
  reserved : ∀ name, name ∈ names.reserved ↔ name ∈ names.assigned.map Prod.snd

namespace Names

variable {names : Names} {key other : OriginKey} {proposed name : String}

theorem firstNumbered?_not_mem {taken : List String} {stem : String} {tries index : Nat}
    (h : firstNumbered? taken stem tries index = some name) : name ∉ taken := by
  induction tries generalizing index with
  | zero => cases h
  | succ tries ih =>
      simp only [firstNumbered?] at h
      split at h
      · exact ih h
      · rename_i hFree
        cases h
        simpa using hFree

theorem firstFree?_not_mem (h : names.firstFree? proposed = some name) :
    name ∉ names.reserved := by
  unfold firstFree? at h
  split at h
  · exact firstNumbered?_not_mem h
  · rename_i hFree
    cases h
    simpa using hFree

/-- What asking for a name can do: find the name of the key, name the key anew, or give up. -/
theorem request_cases (names : Names) (key : OriginKey) (proposed : String) :
    (∃ name, names.nameOf? key = some name ∧ names.request key proposed = (.ok name, names)) ∨
    (∃ name, names.nameOf? key = none ∧ name ∉ names.reserved ∧
      names.request key proposed = (.ok name, names.assign key name)) ∨
    names.request key proposed = (.error (.namesExhausted proposed names.maxSuffix), names) := by
  unfold request
  cases hKnown : names.nameOf? key with
  | some name => exact .inl ⟨name, rfl, rfl⟩
  | none =>
      cases hFree : names.firstFree? proposed with
      | some name => exact .inr (.inl ⟨name, rfl, firstFree?_not_mem hFree, rfl⟩)
      | none => exact .inr (.inr rfl)

theorem request_of_known (h : names.nameOf? key = some name) (proposed : String) :
    names.request key proposed = (.ok name, names) := by
  rw [request, h]

theorem nameOf?_assign_self (h : names.nameOf? key = none) :
    (names.assign key name).nameOf? key = some name := by
  unfold nameOf? at h ⊢
  rw [assign, List.lookup_append, h]
  simp

theorem nameOf?_assign_of_some (h : names.nameOf? key = some name) {given : String} :
    (names.assign other given).nameOf? key = some name := by
  unfold nameOf? at h ⊢
  rw [assign, List.lookup_append, h]
  rfl

/-- A name that was asked for is the name of its key from then on. -/
theorem nameOf?_request (h : (names.request key proposed).1 = .ok name) :
    (names.request key proposed).2.nameOf? key = some name := by
  rcases names.request_cases key proposed with
    ⟨found, hKnown, hEq⟩ | ⟨found, hNew, _, hEq⟩ | hEq
  · rw [hEq] at h ⊢
    cases h
    exact hKnown
  · rw [hEq] at h ⊢
    cases h
    exact nameOf?_assign_self hNew
  · rw [hEq] at h
    cases h

/-- Asking for a name changes no other name. -/
theorem nameOf?_request_of_some (h : names.nameOf? other = some name) :
    (names.request key proposed).2.nameOf? other = some name := by
  rcases names.request_cases key proposed with ⟨_, _, hEq⟩ | ⟨_, _, _, hEq⟩ | hEq
  · rw [hEq]
    exact h
  · rw [hEq]
    exact nameOf?_assign_of_some h
  · rw [hEq]
    exact h

theorem Distinct.assign (h : names.Distinct) (hNew : names.nameOf? key = none)
    (hFree : name ∉ names.reserved) : (names.assign key name).Distinct := by
  have hKey : key.plain ∉ names.assigned.map Prod.fst := by
    intro hMem
    obtain ⟨⟨found, value⟩, hEntry, rfl⟩ := List.mem_map.mp hMem
    obtain ⟨other, hOther⟩ := Association.lookup_isSome_of_mem hEntry
    unfold nameOf? at hNew
    rw [hNew] at hOther
    cases hOther
  have hName : name ∉ names.assigned.map Prod.snd := mt (h.reserved name).mpr hFree
  constructor
  · simp only [Names.assign, List.map_append, List.map_cons, List.map_nil]
    exact List.nodup_append_comm.mp (List.nodup_cons.mpr ⟨hKey, h.keys⟩)
  · simp only [Names.assign, List.map_append, List.map_cons, List.map_nil]
    exact List.nodup_append_comm.mp (List.nodup_cons.mpr ⟨hName, h.given⟩)
  · intro other
    simp only [Names.assign, List.map_append, List.map_cons, List.map_nil, List.mem_append,
      List.mem_singleton, List.mem_insert_iff, h.reserved other]
    exact Or.comm

theorem Distinct.request (h : names.Distinct) (key : OriginKey) (proposed : String) :
    (names.request key proposed).2.Distinct := by
  rcases names.request_cases key proposed with
    ⟨_, _, hEq⟩ | ⟨name, hNew, hFree, hEq⟩ | hEq
  · rw [hEq]
    exact h
  · rw [hEq]
    exact h.assign hNew hFree
  · rw [hEq]
    exact h

theorem Reached.distinct (h : names.Reached) : names.Distinct := by
  induction h with
  | initial maxSuffix => exact ⟨List.nodup_nil, List.nodup_nil, fun _ => Iff.rfl⟩
  | request prior key proposed ih => exact ih.request key proposed

/-- Keys of one name agree in everything but the spelling of files. -/
theorem Distinct.plain_eq (h : names.Distinct) (hKey : names.nameOf? key = some name)
    (hOther : names.nameOf? other = some name) : key.plain = other.plain := by
  have hSame : (key.plain, name) = (other.plain, name) :=
    List.inj_on_of_nodup_map h.given (Association.mem_of_lookup hKey)
      (Association.mem_of_lookup hOther) rfl
  exact (Prod.mk.inj hSame).1

end Names

/-- The same location in another file. -/
def Location.inFile (file : SourcePath) : Location → Location
  | .document p => .document { p with file := file }
  | .schemaFile p => .schemaFile { p with file := file }
  | .builtIn => .builtIn
  | .schema => .schema

/-- The same origin with all locations moved into one file. -/
def Origin.inFile (file : SourcePath) : Origin → Origin
  | modelClass type locations => modelClass type (locations.map (Location.inFile file))
  | inlineFragment location condition => inlineFragment (location.inFile file) condition
  | namedFragment location name => namedFragment (location.inFile file) name
  | operation location => operation (location.inFile file)
  | resultParser locations => resultParser (locations.map (Location.inFile file))
  | selection locations => selection (locations.map (Location.inFile file))
  | typeCase type locations => typeCase type (locations.map (Location.inFile file))

mutual

/-- The same key with all locations moved into one file. -/
def OriginKey.inFile (file : SourcePath) : OriginKey → OriginKey
  | .node origin children => .node (origin.inFile file) (OriginKey.inFileAll file children)

def OriginKey.inFileAll (file : SourcePath) : List OriginKey → List OriginKey
  | [] => []
  | key :: rest => key.inFile file :: OriginKey.inFileAll file rest

end

theorem Location.inFile_plain (file : SourcePath) (location : Location) :
    location.plain.inFile file = location.inFile file := by
  cases location <;> rfl

theorem Origin.inFile_plain (file : SourcePath) (origin : Origin) :
    origin.plain.inFile file = origin.inFile file := by
  cases origin <;>
    simp [Origin.plain, Origin.inFile, Location.inFile_plain, List.map_map, Function.comp_def]

mutual

theorem OriginKey.inFile_plain (file : SourcePath) :
    ∀ key : OriginKey, key.plain.inFile file = key.inFile file
  | .node origin children => by
    rw [OriginKey.plain, OriginKey.inFile, OriginKey.inFile, Origin.inFile_plain,
      OriginKey.inFileAll_plain file children]

theorem OriginKey.inFileAll_plain (file : SourcePath) :
    ∀ keys : List OriginKey,
      OriginKey.inFileAll file (OriginKey.plainList keys) = OriginKey.inFileAll file keys
  | [] => rfl
  | key :: rest => by
    rw [OriginKey.plainList, OriginKey.inFileAll, OriginKey.inFileAll,
      OriginKey.inFile_plain file key, OriginKey.inFileAll_plain file rest]

end

/-- Keys whose locations lie in one file have different names when they differ. -/
theorem Names.Distinct.key_eq {names : Names} (h : names.Distinct) {key other : OriginKey}
    {name : String} (hKey : names.nameOf? key = some name)
    (hOther : names.nameOf? other = some name) {file : SourcePath}
    (hIn : key.inFile file = key) (hOtherIn : other.inFile file = other) : key = other := by
  calc
    key = key.plain.inFile file := by rw [OriginKey.inFile_plain, hIn]
    _ = other.plain.inFile file := by rw [h.plain_eq hKey hOther]
    _ = other := by rw [OriginKey.inFile_plain, hOtherIn]

end ResponseModels
