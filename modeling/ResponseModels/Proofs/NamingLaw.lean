import ResponseModels.Proofs.Model.Names

/-! The law of names. Whatever has been asked for, and by however many compilations in turns, the
names given are one to one with the keys that have them, and what a call answers hangs only on
whether its key has a name and on which names are taken. -/
namespace ResponseModels

namespace Names

variable {names : Names} {key : OriginKey} {proposed name : String}

/-- The names after a sequence of calls, each with a key and the name proposed for it. -/
def after (names : Names) (calls : List (OriginKey × String)) : Names :=
  calls.foldl (fun names call => (names.request call.1 call.2).2) names

/-- The name that a new key is given: the proposed one if it is free, and otherwise that with the
least number behind it that makes it free. -/
inductive Grants (names : Names) (proposed : String) : String → Prop
  | proposed : proposed ∉ names.reserved → Grants names proposed proposed
  | numbered {index : Nat} : proposed ∈ names.reserved → 1 ≤ index → index ≤ names.maxSuffix →
    (∀ less, 1 ≤ less → less < index → proposed ++ toString less ∈ names.reserved) →
    proposed ++ toString index ∉ names.reserved →
    Grants names proposed (proposed ++ toString index)

/-- The proposed name is taken, and so is every name made from it with a number. -/
def Exhausted (names : Names) (proposed : String) : Prop :=
  proposed ∈ names.reserved ∧
    ∀ index, 1 ≤ index → index ≤ names.maxSuffix → proposed ++ toString index ∈ names.reserved

theorem firstNumbered?_eq_some_iff {taken : List String} {stem : String} {tries index : Nat} :
    firstNumbered? taken stem tries index = some name ↔
      ∃ found, index ≤ found ∧ found < index + tries ∧ name = stem ++ toString found ∧
        (∀ less, index ≤ less → less < found → stem ++ toString less ∈ taken) ∧
        stem ++ toString found ∉ taken := by
  induction tries generalizing index with
  | zero =>
      simp only [firstNumbered?, reduceCtorEq, false_iff]
      rintro ⟨found, hFrom, hBelow, _⟩
      omega
  | succ tries ih =>
      simp only [firstNumbered?, List.contains_iff_mem]
      split
      · rename_i hTaken
        rw [ih]
        constructor
        · rintro ⟨found, hFrom, hBelow, hName, hLess, hFree⟩
          refine ⟨found, by omega, by omega, hName, fun less hAt hSmaller => ?_, hFree⟩
          rcases Nat.eq_or_lt_of_le hAt with rfl | hLater
          · exact hTaken
          · exact hLess less hLater hSmaller
        · rintro ⟨found, hFrom, hBelow, hName, hLess, hFree⟩
          have hLater : index ≠ found := by
            rintro rfl
            exact hFree hTaken
          exact ⟨found, by omega, by omega, hName,
            fun less hAt hSmaller => hLess less (by omega) hSmaller, hFree⟩
      · rename_i hFree
        constructor
        · rintro ⟨⟩
          exact ⟨index, Nat.le_refl _, by omega, rfl, fun less hAt hSmaller => by omega, hFree⟩
        · rintro ⟨found, hFrom, _, rfl, hLess, _⟩
          rcases Nat.eq_or_lt_of_le hFrom with rfl | hLater
          · rfl
          · exact absurd (hLess index (Nat.le_refl _) hLater) hFree

theorem firstNumbered?_eq_none_iff {taken : List String} {stem : String} {tries index : Nat} :
    firstNumbered? taken stem tries index = none ↔
      ∀ number, index ≤ number → number < index + tries → stem ++ toString number ∈ taken := by
  induction tries generalizing index with
  | zero =>
      simp only [firstNumbered?, true_iff]
      intro number hFrom hBelow
      omega
  | succ tries ih =>
      simp only [firstNumbered?, List.contains_iff_mem]
      split
      · rename_i hTaken
        rw [ih]
        constructor
        · intro hAll number hFrom hBelow
          rcases Nat.eq_or_lt_of_le hFrom with rfl | hLater
          · exact hTaken
          · exact hAll number hLater (by omega)
        · exact fun hAll number hFrom hBelow => hAll number (by omega) (by omega)
      · rename_i hFree
        simp only [reduceCtorEq, false_iff]
        exact fun hAll => hFree (hAll index (Nat.le_refl _) (by omega))

theorem firstFree?_eq_some_iff :
    names.firstFree? proposed = some name ↔ names.Grants proposed name := by
  unfold firstFree?
  split
  · rename_i hTaken
    rw [List.contains_iff_mem] at hTaken
    rw [firstNumbered?_eq_some_iff]
    constructor
    · rintro ⟨index, hFrom, hBelow, rfl, hLess, hFree⟩
      exact .numbered hTaken hFrom (by omega) hLess hFree
    · rintro (hFree | ⟨_, hFrom, hTo, hLess, hFree⟩)
      · exact absurd hTaken hFree
      · exact ⟨_, hFrom, by omega, rfl, hLess, hFree⟩
  · rename_i hNew
    rw [List.contains_iff_mem] at hNew
    constructor
    · rintro ⟨⟩
      exact .proposed hNew
    · rintro (_ | ⟨hTaken, _⟩)
      · rfl
      · exact absurd hTaken hNew

theorem firstFree?_eq_none_iff : names.firstFree? proposed = none ↔ names.Exhausted proposed := by
  unfold firstFree? Exhausted
  split
  · rename_i hTaken
    rw [List.contains_iff_mem] at hTaken
    rw [firstNumbered?_eq_none_iff]
    constructor
    · exact fun hAll => ⟨hTaken, fun index hFrom hTo => hAll index hFrom (by omega)⟩
    · exact fun hAll index hFrom hBelow => hAll.2 index hFrom (by omega)
  · rename_i hNew
    rw [List.contains_iff_mem] at hNew
    simp [hNew]

/-- A new key is named exactly as it is granted. -/
theorem request_eq_ok_iff (h : names.nameOf? key = none) :
    (names.request key proposed).1 = .ok name ↔ names.Grants proposed name := by
  rw [request, h, ← firstFree?_eq_some_iff]
  cases names.firstFree? proposed <;> simp

theorem request_eq_error_iff (h : names.nameOf? key = none) {cause : ModelError} :
    (names.request key proposed).1 = .error cause ↔
      cause = .namesExhausted proposed names.maxSuffix ∧ names.Exhausted proposed := by
  rw [request, h, ← firstFree?_eq_none_iff]
  cases names.firstFree? proposed <;> simp [eq_comm]

theorem names_of_request_eq_error {cause : ModelError}
    (h : (names.request key proposed).1 = .error cause) :
    (names.request key proposed).2 = names := by
  rcases names.request_cases key proposed with ⟨_, _, hEq⟩ | ⟨_, _, _, hEq⟩ | hEq
  · rw [hEq]
  · rw [hEq] at h
    cases h
  · rw [hEq]

theorem maxSuffix_request : (names.request key proposed).2.maxSuffix = names.maxSuffix := by
  rcases names.request_cases key proposed with ⟨_, _, hEq⟩ | ⟨_, _, _, hEq⟩ | hEq
  · rw [hEq]
  · rw [hEq, assign]
  · rw [hEq]

theorem after_append (calls more : List (OriginKey × String)) :
    names.after (calls ++ more) = (names.after calls).after more :=
  List.foldl_append

theorem maxSuffix_after (calls : List (OriginKey × String)) :
    (names.after calls).maxSuffix = names.maxSuffix := by
  induction calls generalizing names with
  | nil => rfl
  | cons call rest ih => exact ih.trans maxSuffix_request

/-- No later call takes a name away. -/
theorem nameOf?_after (h : names.nameOf? key = some name) (calls : List (OriginKey × String)) :
    (names.after calls).nameOf? key = some name := by
  induction calls generalizing names with
  | nil => exact h
  | cons call rest ih => exact ih (nameOf?_request_of_some h)

theorem Reached.after (h : names.Reached) (calls : List (OriginKey × String)) :
    (names.after calls).Reached := by
  induction calls generalizing names with
  | nil => exact h
  | cons call rest ih => exact ih (h.request call.1 call.2)

/-- All keys that have names stand in their plain spelling. -/
theorem Reached.plain_of_mem (h : names.Reached) {entry : OriginKey × String}
    (hEntry : entry ∈ names.assigned) : ∃ key : OriginKey, key.plain = entry.1 := by
  induction h with
  | initial => cases hEntry
  | @request names prior key proposed ih =>
      rcases names.request_cases key proposed with ⟨_, _, hEq⟩ | ⟨_, _, _, hEq⟩ | hEq
      · rw [hEq] at hEntry
        exact ih hEntry
      · rw [hEq] at hEntry
        rcases List.mem_append.mp hEntry with hOld | hNew
        · exact ih hOld
        · rw [List.mem_singleton.mp hNew]
          exact ⟨key, rfl⟩
      · rw [hEq] at hEntry
        exact ih hEntry

/-- The names that are taken are those that some key has. -/
theorem Reached.mem_reserved_iff (h : names.Reached) :
    name ∈ names.reserved ↔ ∃ key, names.nameOf? key = some name := by
  rw [h.distinct.reserved]
  constructor
  · intro hTaken
    obtain ⟨⟨known, _⟩, hEntry, rfl⟩ := List.mem_map.mp hTaken
    obtain ⟨key, rfl⟩ := h.plain_of_mem hEntry
    exact ⟨key, Association.lookup_of_mem h.distinct.keys hEntry⟩
  · rintro ⟨key, hKey⟩
    exact List.mem_map.mpr ⟨_, Association.mem_of_lookup hKey, rfl⟩

/-- What holds of names at any time. Keys count as the same when they differ in the spelling of
files only. -/
structure Lawful (names : Names) (maxSuffix : Nat) : Prop where
  /-- Different keys have different names. -/
  apart : ∀ key other name, names.nameOf? key = some name → names.nameOf? other = some name →
    key.plain = other.plain
  /-- Exactly the names of keys are taken. -/
  reserved : ∀ name, name ∈ names.reserved ↔ ∃ key, names.nameOf? key = some name
  /-- What a call answers is the name of its key, and every later call answers the same. -/
  kept : ∀ key proposed name, (names.request key proposed).1 = .ok name →
    ∀ later, ((names.request key proposed).2.after later).nameOf? key = some name ∧
      ∀ another, ((names.request key proposed).2.after later).request key another =
        (.ok name, (names.request key proposed).2.after later)
  /-- A new key is given the proposed name or the least free number behind it. -/
  granted : ∀ key proposed name, names.nameOf? key = none →
    ((names.request key proposed).1 = .ok name ↔ names.Grants proposed name)
  /-- A call for a new key fails when nothing is free, and only then. -/
  exhausted : ∀ key proposed cause, names.nameOf? key = none →
    ((names.request key proposed).1 = .error cause ↔
      cause = .namesExhausted proposed maxSuffix ∧ names.Exhausted proposed)
  /-- A call that fails changes nothing. -/
  unchanged : ∀ key proposed cause, (names.request key proposed).1 = .error cause →
    (names.request key proposed).2 = names
  /-- The largest number is the one that was set at the start. -/
  bounded : names.maxSuffix = maxSuffix

theorem Reached.lawful (h : names.Reached) : names.Lawful names.maxSuffix where
  apart _ _ _ hKey hOther := h.distinct.plain_eq hKey hOther
  reserved _ := h.mem_reserved_iff
  kept _ _ _ hName later :=
    have hKept := nameOf?_after (nameOf?_request hName) later
    ⟨hKept, fun another => request_of_known hKept another⟩
  granted _ _ _ hNew := request_eq_ok_iff hNew
  exhausted _ _ _ hNew := request_eq_error_iff hNew
  unchanged _ _ _ hFailed := names_of_request_eq_error hFailed
  bounded := rfl

end Names

/-- The law holds after any calls, in whatever order they come in. -/
theorem names_lawful_after (maxSuffix : Nat) (calls : List (OriginKey × String)) :
    ((Names.initial maxSuffix).after calls).Lawful maxSuffix := by
  have hLawful := ((Names.Reached.initial maxSuffix).after calls).lawful
  rwa [Names.maxSuffix_after] at hLawful

/-- A number may be taken by a name that was proposed with it. -/
example :
    let names := (Names.initial 2).after
      [(.leaf (.resultParser []), "Droid1"), (.leaf (.selection []), "Droid")]
    (names.request (.leaf (.operation .schema)) "Droid").1 = .ok "Droid2" := by
  decide

end ResponseModels
