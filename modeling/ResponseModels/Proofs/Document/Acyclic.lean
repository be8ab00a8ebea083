import ResponseModels.Proofs.Document.Nodes
import ResponseModels.Proofs.Document.Searching
import Mathlib.Data.List.Perm.Subperm

/-! Fragments among which no cycle of spreads is found can be ranked: a fragment ranks above
every fragment that it spreads. The search is followed step by step; its list of finished
fragments holds each one after those that it spreads, and the rank is the place in that list. -/
namespace ResponseModels

open GraphQL

namespace Cycle

variable {fragments : Fragments}

/-- Finished fragments, each listed after all defined fragments that it spreads. -/
inductive Settled (fragments : Fragments) : List String → Prop
  | nil : Settled fragments []
  | snoc {done : List String} {name : String} {fragment : Fragment} :
    Settled fragments done → name ∉ done → fragments.get? name = some fragment →
    (∀ next ∈ Selection.spreadsAll fragment.selections, next ∈ fragments.keys → next ∈ done) →
    Settled fragments (done ++ [name])

theorem mem_keys_of_get? {name : String} {fragment : Fragment}
    (h : fragments.get? name = some fragment) : name ∈ fragments.keys := by
  by_contra hAbsent
  rw [← OrderedMap.get?_eq_none_iff, h] at hAbsent
  cases hAbsent

namespace Settled

variable {done : List String}

theorem nodup (h : Settled fragments done) : done.Nodup := by
  induction h with
  | nil => exact List.nodup_nil
  | snoc _ hFresh _ _ ih => exact List.nodup_append.mpr ⟨ih, by simp, by grind⟩

theorem subset_keys (h : Settled fragments done) : done ⊆ fragments.keys := by
  induction h with
  | nil => exact List.nil_subset _
  | snoc _ _ hFound _ ih =>
      exact List.append_subset.mpr ⟨ih, by simpa using mem_keys_of_get? hFound⟩

theorem idxOf_lt (h : Settled fragments done) {name : String} {fragment : Fragment}
    (hName : name ∈ done) (hFound : fragments.get? name = some fragment) {next : String}
    (hNext : next ∈ Selection.spreadsAll fragment.selections) (hDefined : next ∈ fragments.keys) :
    done.idxOf next < done.idxOf name := by
  induction h with
  | nil => cases hName
  | @snoc done last known _ hFresh hLast hSpreads ih =>
      by_cases hOld : name ∈ done
      · have hLess := ih hOld
        have hBound := List.idxOf_lt_length_of_mem hOld
        rw [List.idxOf_append_of_mem hOld]
        rw [List.idxOf_append_of_mem (List.idxOf_lt_length_iff.mp (Nat.lt_trans hLess hBound))]
        exact hLess
      · have hSame : name = last := by simpa [hOld] using hName
        subst hSame
        rw [hLast] at hFound
        cases hFound
        have hBefore := hSpreads next hNext hDefined
        rw [List.idxOf_append_of_mem hBefore, List.idxOf_append_of_notMem hOld]
        exact Nat.lt_of_lt_of_le (List.idxOf_lt_length_of_mem hBefore) (Nat.le_add_right _ _)

end Settled

namespace Search

theorem Along.found_record_ne_nil {path : List String} {search : Search}
    (h : search.Along path) (cycle : List String) : (search.record cycle).found ≠ [] := by
  unfold Search.record
  split
  · rename_i hKnown
    obtain ⟨known, hFound, _⟩ := (h.seen _).mp (List.contains_iff_mem.mp hKnown)
    exact List.ne_nil_of_mem hFound
  · simp

theorem found_prefix_foldl {step : Search → String → Search}
    (hStep : ∀ search name, search.found <+: (step search name).found) (names : List String)
    (search : Search) : search.found <+: (names.foldl step search).found :=
  List.foldlRecOn (motive := fun later : Search => search.found <+: later.found) _ _
    List.prefix_rfl fun later hEarlier name _ => hEarlier.trans (hStep later name)

/-- Cycles once found stay found. -/
theorem found_prefix_visit (budget : Nat) (search : Search) (name : String) :
    search.found <+: (visit fragments budget search name).found := by
  induction budget using Nat.strongRecOn generalizing search name with
  | _ budget ih =>
      rcases visit_cases fragments budget search name with
        ⟨_, hVisit⟩ | ⟨_, hVisit⟩ | ⟨less, fragment, rfl, _, _, _, hVisit⟩
      · rw [hVisit, record]
        split
        · exact List.prefix_rfl
        · exact List.prefix_append _ _
      · simp [hVisit]
      · rw [hVisit]
        exact found_prefix_foldl (ih less (Nat.lt_succ_self less)) _ (search.enter name)

/-- What a search may rely on when it comes to a fragment along a path, with `budget` more
fragments to go at most. -/
structure Underway (fragments : Fragments) (budget : Nat) (path : List String)
    (search : Search) : Prop where
  along : search.Along path
  settled : Settled fragments search.done
  nodup : path.Nodup
  defined : path ⊆ fragments.keys
  enough : fragments.size ≤ budget + path.length

/-- What a search that has found no cycle leaves behind: finished fragments stay so, and none on
the path is newly finished. -/
structure Advanced (fragments : Fragments) (path : List String) (before after : Search) :
    Prop where
  settled : Settled fragments after.done
  kept : before.done ⊆ after.done
  offPath : ∀ name ∈ after.done, name ∈ path → name ∈ before.done

theorem Advanced.refl {path : List String} {search : Search}
    (h : Settled fragments search.done) : Advanced fragments path search search :=
  ⟨h, List.Subset.refl _, fun _ hDone _ => hDone⟩

theorem Advanced.trans {path : List String} {first second third : Search}
    (h : Advanced fragments path first second) (h' : Advanced fragments path second third) :
    Advanced fragments path first third :=
  ⟨h'.settled, List.Subset.trans h.kept h'.kept, fun name hDone hPath =>
    h.offPath name (h'.offPath name hDone hPath) hPath⟩

/-- The path is a fragment shorter than the budget allows, or all fragments are on it. -/
theorem Underway.defined_of_spent {path : List String} {search : Search}
    (h : Underway fragments 0 path search) {name : String} (hName : name ∈ fragments.keys) :
    name ∈ path := by
  have hLength : fragments.keys.length ≤ path.length := by
    simpa [OrderedMap.keys, OrderedMap.size] using h.enough
  have hPerm := (h.nodup.subperm h.defined).perm_of_length_le hLength
  exact hPerm.mem_iff.mpr hName

/-- A defined fragment that is not on the path is followed with one less to go. -/
theorem Underway.enter {budget : Nat} {path : List String} {search : Search} {name : String}
    {fragment : Fragment} (h : Underway fragments (budget + 1) path search) (hOff : name ∉ path)
    (hFound : fragments.get? name = some fragment) :
    Underway fragments budget (path ++ [name]) (search.enter name) := by
  refine ⟨h.along.enter name, h.settled, ?_, ?_, ?_⟩
  · exact List.nodup_append.mpr ⟨h.nodup, by simp, by grind⟩
  · exact List.append_subset.mpr ⟨h.defined, by simpa using mem_keys_of_get? hFound⟩
  · have hEnough := h.enough
    rw [List.length_append, List.length_singleton]
    omega

/-- Following a list of spreads one by one, when each of them is followed well. -/
theorem foldl_advances {budget : Nat} {path : List String}
    (hVisit : ∀ search name, Underway fragments budget path search →
      (visit fragments budget search name).found = [] →
      Advanced fragments path search (visit fragments budget search name) ∧
        (name ∈ fragments.keys → name ∈ (visit fragments budget search name).done))
    (spreads : List String) {search : Search} (h : Underway fragments budget path search)
    (hFree : (spreads.foldl (visit fragments budget) search).found = []) :
    Advanced fragments path search (spreads.foldl (visit fragments budget) search) ∧
      ∀ next ∈ spreads, next ∈ fragments.keys →
        next ∈ (spreads.foldl (visit fragments budget) search).done := by
  induction spreads generalizing search with
  | nil => exact ⟨.refl h.settled, by simp⟩
  | cons first rest ih =>
      rw [List.foldl_cons] at hFree ⊢
      have hFreeFirst : (visit fragments budget search first).found = [] :=
        List.prefix_nil.mp (hFree ▸ found_prefix_foldl (found_prefix_visit budget) rest _)
      obtain ⟨hFirst, hDone⟩ := hVisit search first h hFreeFirst
      obtain ⟨hRest, hOthers⟩ := ih ⟨h.along.visit fragments budget first, hFirst.settled, h.nodup,
        h.defined, h.enough⟩ hFree
      refine ⟨hFirst.trans hRest, ?_⟩
      intro next hNext hDefined
      rcases List.mem_cons.mp hNext with rfl | hNext
      · exact hRest.kept (hDone hDefined)
      · exact hOthers next hNext hDefined

/-- A search that finds no cycle finishes the fragment it comes to. -/
theorem visit_advances (budget : Nat) (path : List String) (search : Search) (name : String)
    (h : Underway fragments budget path search)
    (hFree : (visit fragments budget search name).found = []) :
    Advanced fragments path search (visit fragments budget search name) ∧
      (name ∈ fragments.keys → name ∈ (visit fragments budget search name).done) := by
  induction budget using Nat.strongRecOn generalizing path search name with
  | _ budget ih =>
      rcases h.along.visit_cases fragments budget name with
        ⟨_, hVisit⟩ | ⟨hStop, hVisit⟩ | ⟨less, fragment, rfl, hOff, hNew, hFound, hVisit⟩
      · rw [hVisit] at hFree
        exact absurd hFree (h.along.found_record_ne_nil _)
      · rw [hVisit]
        refine ⟨.refl h.settled, fun hName => ?_⟩
        rcases hStop with hDone | hUndefined | ⟨rfl, hOff⟩
        · exact hDone
        · exact absurd hName ((OrderedMap.get?_eq_none_iff _ _).mp hUndefined)
        · exact absurd (h.defined_of_spent hName) hOff
      · rw [hVisit] at hFree ⊢
        obtain ⟨hAfter, hSpreads⟩ := foldl_advances
          (fun search name hUnderway hFree =>
            ih less (Nat.lt_succ_self less) _ search name hUnderway hFree)
          _ (h.enter hOff hFound) hFree
        have hFresh := fun hDone => hNew (hAfter.offPath name hDone (by simp))
        refine ⟨⟨.snoc hAfter.settled hFresh hFound hSpreads, ?_, ?_⟩, ?_⟩
        · exact fun other hOther => List.mem_append_left _ (hAfter.kept hOther)
        · intro other hOther hPath
          rcases List.mem_append.mp hOther with hOther | hOther
          · exact hAfter.offPath other hOther (List.mem_append_left _ hPath)
          · exact absurd (List.mem_singleton.mp hOther ▸ hPath) hOff
        · exact fun _ => List.mem_append_right _ (List.mem_singleton.mpr rfl)

/-- A search from given names that finds no cycle finishes all of them that are defined, and what
they lead to. -/
theorem settled_visitAll (names : List String) (h : (visitAll fragments names).found = []) :
    Settled fragments (visitAll fragments names).done ∧
      ∀ name ∈ names, name ∈ fragments.keys → name ∈ (visitAll fragments names).done := by
  rw [visitAll_eq_foldl] at h ⊢
  have hStart : Underway fragments fragments.size [] .initial :=
    ⟨along_initial, .nil, List.nodup_nil, List.nil_subset _, by simp⟩
  obtain ⟨hSearch, hDone⟩ := foldl_advances
    (fun search name hUnderway hFree => visit_advances _ _ search name hUnderway hFree)
    names hStart h
  exact ⟨hSearch.settled, hDone⟩

end Search

/-- A rank of fragments that falls along spreads. -/
structure Ranking (fragments : Fragments) (rank : String → Nat) : Prop where
  bounded : ∀ name ∈ fragments.keys, rank name < fragments.size
  falls : ∀ {name fragment}, fragments.get? name = some fragment →
    ∀ next ∈ Selection.spreadsAll fragment.selections, next ∈ fragments.keys →
      rank next < rank name

/-- When no cycle is found there is none: the fragments can be ranked. -/
theorem exists_ranking (h : find fragments = []) : ∃ rank, Ranking fragments rank := by
  obtain ⟨hSettled, hDone⟩ := Search.settled_visitAll fragments.keys h
  generalize Search.visitAll fragments fragments.keys = finished at hSettled hDone
  refine ⟨fun name => finished.done.idxOf name, ?_, ?_⟩
  · intro name hName
    have hLength := (hSettled.nodup.subperm hSettled.subset_keys).length_le
    rw [OrderedMap.keys, List.length_map] at hLength
    exact Nat.lt_of_lt_of_le (List.idxOf_lt_length_of_mem (hDone name hName hName)) hLength
  · intro name fragment hFound next hNext hDefined
    have hName := mem_keys_of_get? hFound
    exact hSettled.idxOf_lt (hDone name hName hName) hFound hNext hDefined

end Cycle

theorem Document.Accepted.exists_ranking {document : Document} (h : document.Accepted) :
    ∃ rank, Cycle.Ranking document.fragments rank :=
  Cycle.exists_ranking h.keyed_and_cycleFree.2

end ResponseModels
