import ResponseModels.Document.Cycle
import Mathlib.Data.List.Nodup

/-! The state of a search for cycles. Whatever a search comes to, the fragments that it is
following are those on its path, and the normal forms that it keeps are those of the cycles that it
has found; and when it comes back from a fragment, it is on the path on which it came there. -/
namespace ResponseModels

open GraphQL

namespace Cycle.Search

variable {fragments : Fragments} {path : List String} {search : Search} {name : String}

/-- What a visit comes to: a fragment that is being followed closes a walk; one that is finished or
not defined adds nothing, nor does any other when the budget is spent; and else its spreads are
followed. -/
theorem visit_cases (fragments : Fragments) (budget : Nat) (search : Search) (name : String) :
    (name ∈ search.visiting ∧ visit fragments budget search name =
      search.record (search.path.dropWhile (· ≠ name) ++ [name])) ∨
    ((name ∈ search.done ∨ fragments.get? name = none ∨ budget = 0 ∧ name ∉ search.visiting) ∧
      visit fragments budget search name = search) ∨
    ∃ less fragment, budget = less + 1 ∧ name ∉ search.visiting ∧ name ∉ search.done ∧
      fragments.get? name = some fragment ∧
      visit fragments budget search name =
        ((Selection.spreadsAll fragment.selections).foldl (visit fragments less)
          (search.enter name)).leave name := by
  unfold visit
  by_cases hOn : name ∈ search.visiting
  · exact .inl ⟨hOn, if_pos (by simpa using hOn)⟩
  rw [if_neg (by simpa using hOn)]
  by_cases hDone : name ∈ search.done
  · exact .inr (.inl ⟨.inl hDone, if_pos (by simpa using hDone)⟩)
  rw [if_neg (by simpa using hDone)]
  cases hFound : fragments.get? name with
  | none => exact .inr (.inl ⟨.inr (.inl rfl), rfl⟩)
  | some fragment =>
      cases budget with
      | zero => exact .inr (.inl ⟨.inr (.inr ⟨rfl, hOn⟩), rfl⟩)
      | succ less => exact .inr (.inr ⟨less, fragment, rfl, hOn, hDone, rfl, rfl⟩)

/-- The search is on the given path, and its sets hold what its lists hold. -/
structure Along (path : List String) (search : Search) : Prop where
  path_eq : search.path = path
  visiting : ∀ name, name ∈ search.visiting ↔ name ∈ path
  nodup : search.visiting.Nodup
  seen : ∀ walk, walk ∈ search.seen ↔ ∃ cycle ∈ search.found, normalize cycle = walk

theorem along_initial : initial.Along [] :=
  ⟨rfl, fun _ => Iff.rfl, List.nodup_nil, by simp [initial]⟩

namespace Along

theorem enter (h : search.Along path) (name : String) :
    (search.enter name).Along (path ++ [name]) where
  path_eq := by rw [Search.enter, h.path_eq]
  visiting other := by
    simp only [Search.enter, List.mem_insert_iff, List.mem_append, List.mem_singleton,
      h.visiting other]
    exact Or.comm
  nodup := h.nodup.insert
  seen := h.seen

theorem leave (h : search.Along (path ++ [name])) (hOff : name ∉ path) :
    (search.leave name).Along path where
  path_eq := by rw [Search.leave, h.path_eq, List.dropLast_concat]
  visiting other := by
    rw [Search.leave, h.nodup.mem_erase_iff, h.visiting other, List.mem_append,
      List.mem_singleton]
    constructor
    · rintro ⟨hDiffer, hOn | hSame⟩
      · exact hOn
      · exact absurd hSame hDiffer
    · exact fun hOn => ⟨fun hSame => hOff (hSame ▸ hOn), .inl hOn⟩
  nodup := h.nodup.erase name
  seen := h.seen

theorem record (h : search.Along path) (cycle : List String) : (search.record cycle).Along path := by
  unfold Search.record
  split
  · exact h
  · refine ⟨h.path_eq, h.visiting, h.nodup, fun walk => ?_⟩
    simp only [List.mem_insert_iff, h.seen walk, List.mem_append, List.mem_singleton]
    constructor
    · rintro (rfl | ⟨known, hKnown, hNormal⟩)
      · exact ⟨cycle, .inr rfl, rfl⟩
      · exact ⟨known, .inl hKnown, hNormal⟩
    · rintro ⟨known, hKnown | rfl, hNormal⟩
      · exact .inr ⟨known, hKnown, hNormal⟩
      · exact .inl hNormal.symm

/-- What a visit comes to, told by the path. -/
theorem visit_cases (h : search.Along path) (fragments : Fragments) (budget : Nat)
    (name : String) :
    (name ∈ path ∧ visit fragments budget search name =
      search.record (path.dropWhile (· ≠ name) ++ [name])) ∨
    ((name ∈ search.done ∨ fragments.get? name = none ∨ budget = 0 ∧ name ∉ path) ∧
      visit fragments budget search name = search) ∨
    ∃ less fragment, budget = less + 1 ∧ name ∉ path ∧ name ∉ search.done ∧
      fragments.get? name = some fragment ∧
      visit fragments budget search name =
        ((Selection.spreadsAll fragment.selections).foldl (visit fragments less)
          (search.enter name)).leave name := by
  rw [← h.visiting name, ← h.path_eq]
  exact Search.visit_cases fragments budget search name

/-- A visit comes back to the path on which it was made. The induction is on the budget, with the
path growing by one fragment at every level. -/
theorem visit (h : search.Along path) (fragments : Fragments) (budget : Nat) (name : String) :
    (Search.visit fragments budget search name).Along path := by
  induction budget using Nat.strongRecOn generalizing path search name with
  | _ budget ih =>
      rcases h.visit_cases fragments budget name with
        ⟨_, hVisit⟩ | ⟨_, hVisit⟩ | ⟨less, fragment, rfl, hOff, _, _, hVisit⟩
      · rw [hVisit]
        exact h.record _
      · rwa [hVisit]
      · rw [hVisit]
        refine Along.leave ?_ hOff
        exact List.foldlRecOn _ _ (h.enter name) fun _ hEarlier next _ =>
          ih less (Nat.lt_succ_self less) hEarlier next

/-- Visits one after the other keep what every visit on the path keeps. -/
theorem foldl_visit {motive : Search → Prop} {budget : Nat} {names : List String}
    (h : search.Along path) (hStart : motive search)
    (hVisit : ∀ search name, name ∈ names → search.Along path → motive search →
      motive (Search.visit fragments budget search name)) :
    motive (names.foldl (Search.visit fragments budget) search) := by
  have hBoth : (names.foldl (Search.visit fragments budget) search).Along path ∧
      motive (names.foldl (Search.visit fragments budget) search) := by
    refine List.foldlRecOn (motive := fun search : Search => search.Along path ∧ motive search)
      _ _ ⟨h, hStart⟩ ?_
    rintro search ⟨hAlong, hKept⟩ name hName
    exact ⟨hAlong.visit fragments budget name, hVisit search name hName hAlong hKept⟩
  exact hBoth.2

/-- Off every path there is nothing to start anew. -/
theorem restart_eq (h : search.Along []) : search.restart = search := by
  obtain ⟨path, visiting, done, found, seen⟩ := search
  obtain rfl : path = [] := h.path_eq
  obtain rfl : visiting = [] :=
    List.eq_nil_iff_forall_not_mem.mpr fun name hOn => List.not_mem_nil ((h.visiting name).mp hOn)
  rfl

end Along

/-- A search is off every path whenever it comes to the next of the fragments to visit. -/
theorem visitAll_eq_foldl (fragments : Fragments) (names : List String) :
    visitAll fragments names = names.foldl (visit fragments fragments.size) .initial := by
  unfold visitAll
  generalize initial = search, along_initial = hStart
  induction names generalizing search with
  | nil => rfl
  | cons name rest ih =>
      rw [List.foldl_cons, List.foldl_cons, hStart.restart_eq]
      exact ih _ (hStart.visit fragments _ name)

/-- What holds at the start and is kept by every visit made off every path holds of a search from
given names. -/
theorem visitAll_induct {motive : Search → Prop} {names : List String} (hStart : motive initial)
    (hVisit : ∀ search name, name ∈ names → search.Along [] → motive search →
      motive (visit fragments fragments.size search name)) :
    motive (visitAll fragments names) := by
  rw [visitAll_eq_foldl]
  exact along_initial.foldl_visit hStart hVisit

/-- After a search from given names its sets hold what its lists hold, and it is off every path. -/
theorem along_visitAll (fragments : Fragments) (names : List String) :
    (visitAll fragments names).Along [] :=
  visitAll_induct along_initial fun _ name _ hAlong _ => hAlong.visit fragments _ name

end Cycle.Search

end ResponseModels
