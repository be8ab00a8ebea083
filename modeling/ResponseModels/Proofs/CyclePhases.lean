import ResponseModels.Proofs.SpreadCycles
import Mathlib.Data.List.Rotate

/-! A cycle can be walked round from each of its fragments. Turned to their least name, two walks
are the same exactly if they are phases of one cycle, so of every cycle that a search meets it
reports one phase only. -/
namespace ResponseModels

open GraphQL

namespace Cycle

variable {walk other names : List String}

/-- A walk that ends where it starts, and comes through nothing else twice. -/
structure Simple (walk : List String) : Prop where
  length : 2 ≤ walk.length
  closed : walk.head? = walk.getLast?
  distinct : walk.dropLast.Nodup

/-- Two closed walks go round one cycle: without the return to the start, the first is a rotation
of the second. -/
def IsPhaseOf (walk other : List String) : Prop :=
  walk.dropLast.IsRotated other.dropLast

instance : Decidable (IsPhaseOf walk other) :=
  inferInstanceAs (Decidable (walk.dropLast.IsRotated other.dropLast))

theorem simple_iff :
    Simple walk ↔ ∃ first rest, walk = first :: rest ++ [first] ∧ (first :: rest).Nodup := by
  constructor
  · rintro ⟨hLength, hClosed, hDistinct⟩
    obtain rfl | ⟨round, last, rfl⟩ := List.eq_nil_or_concat' walk
    · exact absurd hLength (by simp)
    · rw [List.length_append, List.length_singleton] at hLength
      rw [List.dropLast_concat] at hDistinct
      rw [List.getLast?_concat] at hClosed
      obtain ⟨first, rest, rfl⟩ := List.exists_cons_of_length_pos (Nat.le_of_succ_le_succ hLength)
      obtain rfl : first = last := Option.some.inj hClosed
      exact ⟨first, rest, rfl, hDistinct⟩
  · rintro ⟨first, rest, rfl, hDistinct⟩
    exact ⟨by simp, by rw [List.getLast?_concat]; rfl, by rwa [List.dropLast_concat]⟩

/-- Nothing is on a closed walk but what is on its round. -/
theorem Simple.mem_iff (h : Simple walk) {name : String} : name ∈ walk ↔ name ∈ walk.dropLast := by
  obtain ⟨first, rest, rfl, _⟩ := simple_iff.mp h
  rw [List.dropLast_concat, List.mem_append, List.mem_singleton, or_iff_left_of_imp]
  rintro rfl
  exact List.mem_cons_self

theorem exists_least? (h : names ≠ []) :
    ∃ first, least? names = some first ∧ first ∈ names ∧ ∀ name ∈ names, first ≤ name := by
  induction names with
  | nil => exact absurd rfl h
  | cons name rest ih =>
      cases hRest : rest with
      | nil => exact ⟨name, rfl, List.mem_singleton.mpr rfl, by simp⟩
      | cons next others =>
          obtain ⟨least, hLeast, hMem, hBelow⟩ := ih (by simp [hRest])
          rw [← hRest, least?, hLeast]
          by_cases hLess : least < name
          · have hName := (String.le_total least name).resolve_right (String.not_le.mpr hLess)
            exact ⟨least, if_pos hLess, List.mem_cons_of_mem _ hMem,
              List.forall_mem_cons.mpr ⟨hName, hBelow⟩⟩
          · have hName := String.not_lt.mp hLess
            exact ⟨name, if_neg hLess, List.mem_cons_self, List.forall_mem_cons.mpr
              ⟨String.le_refl name, fun _ hOther => String.le_trans hName (hBelow _ hOther)⟩⟩

/-- What a simple walk is turned into: its round from the least name on, closed again. -/
theorem Simple.exists_normalize (h : Simple walk) :
    ∃ first rest, normalize walk = first :: rest ++ [first] ∧
      (first :: rest).IsRotated walk.dropLast ∧ ∀ name ∈ walk.dropLast, first ≤ name := by
  have hRound : walk.dropLast ≠ [] := by
    rw [← List.length_pos_iff, List.length_dropLast]
    have hLength := h.length
    omega
  obtain ⟨first, hFirst, hMem, hLeast⟩ := exists_least? hRound
  obtain ⟨rest, hRest⟩ := exists_dropWhile_eq_cons hMem
  refine ⟨first, rest ++ walk.dropLast.takeWhile (· ≠ first), ?_, ?_, hLeast⟩
  · simp only [normalize, hFirst, hRest, List.cons_append]
  · rw [← List.cons_append, ← hRest]
    have hTurned : (walk.dropLast.dropWhile (· ≠ first) ++
        walk.dropLast.takeWhile (· ≠ first)).IsRotated _ := List.isRotated_append
    rwa [List.takeWhile_append_dropWhile] at hTurned

theorem Simple.normalize (h : Simple walk) : Simple (Cycle.normalize walk) := by
  obtain ⟨first, rest, hNormal, hRotated, _⟩ := h.exists_normalize
  exact simple_iff.mpr ⟨first, rest, hNormal, hRotated.nodup_iff.mpr h.distinct⟩

theorem Simple.isPhaseOf_normalize (h : Simple walk) : IsPhaseOf (Cycle.normalize walk) walk := by
  obtain ⟨first, rest, hNormal, hRotated, _⟩ := h.exists_normalize
  rwa [IsPhaseOf, hNormal, List.dropLast_concat]

theorem Simple.head?_normalize (h : Simple walk) :
    ∃ first ∈ walk, (Cycle.normalize walk).head? = some first ∧ ∀ name ∈ walk, first ≤ name := by
  obtain ⟨first, rest, hNormal, hRotated, hLeast⟩ := h.exists_normalize
  refine ⟨first, h.mem_iff.mpr (hRotated.mem_iff.mp List.mem_cons_self), by rw [hNormal]; rfl, ?_⟩
  exact fun name hName => hLeast name (h.mem_iff.mp hName)

/-- A list without repeats has only one rotation with a given first entry. -/
theorem eq_of_isRotated {first : String} {rest rest' : List String}
    (h : (first :: rest).IsRotated (first :: rest')) (hDistinct : (first :: rest).Nodup) :
    rest = rest' := by
  obtain ⟨count, hBound, hRotated⟩ := List.isRotated_iff_mod.mp h
  rcases Nat.lt_or_eq_of_le hBound with hLess | rfl
  · -- turned by less than a whole round, the list starts with the entry at that place
    have hHead := congrArg List.head? hRotated
    rw [List.head?_rotate hLess] at hHead
    have hStart : (first :: rest)[count]? = (first :: rest)[0]? := hHead
    have hZero := (List.getElem?_inj hLess hDistinct).mp hStart
    rw [hZero, List.rotate_zero] at hRotated
    exact List.tail_eq_of_cons_eq hRotated
  · rw [List.rotate_length] at hRotated
    exact List.tail_eq_of_cons_eq hRotated

/-- Simple walks have one normal form exactly if they are phases of one cycle. Their least names
are the same then, and at most one phase of a cycle starts there. -/
theorem Simple.normalize_eq_iff (h : Simple walk) (h' : Simple other) :
    Cycle.normalize walk = Cycle.normalize other ↔ IsPhaseOf walk other := by
  constructor
  · intro hSame
    have hWalk := h.isPhaseOf_normalize
    rw [hSame] at hWalk
    exact hWalk.symm.trans h'.isPhaseOf_normalize
  · intro hPhase
    obtain ⟨first, rest, hNormal, hRotated, hLeast⟩ := h.exists_normalize
    obtain ⟨first', rest', hNormal', hRotated', hLeast'⟩ := h'.exists_normalize
    have hTurned := (hRotated.trans hPhase).trans hRotated'.symm
    have hFirst : first = first' := by
      apply String.le_antisymm
      · exact hLeast _ (hPhase.mem_iff.mpr (hRotated'.mem_iff.mp List.mem_cons_self))
      · exact hLeast' _ (hPhase.mem_iff.mp (hRotated.mem_iff.mp List.mem_cons_self))
    subst hFirst
    rw [hNormal, hNormal', eq_of_isRotated hTurned (hRotated.nodup_iff.mpr h.distinct)]

namespace Search

/-- No two of the walks found have one normal form. -/
def Distinct (search : Search) : Prop :=
  search.found.Pairwise (Cycle.normalize · ≠ Cycle.normalize ·)

theorem Distinct.record {search : Search} {path : List String} (hAlong : search.Along path)
    (h : search.Distinct) (walk : List String) : (search.record walk).Distinct := by
  unfold Search.record
  split
  · exact h
  · rename_i hNew
    rw [List.contains_iff_mem, hAlong.seen] at hNew
    refine List.pairwise_append.mpr ⟨h, List.pairwise_singleton _ _, ?_⟩
    intro earlier hEarlier last hLast hNormal
    rw [List.mem_singleton.mp hLast] at hNormal
    exact hNew ⟨earlier, hEarlier, hNormal⟩

/-- One visit keeps the normal forms apart, by induction on the budget as for all that a visit
does. -/
theorem Distinct.visit {fragments : Fragments} {budget : Nat} {path : List String}
    {search : Search} {name : String} (hAlong : search.Along path) (h : search.Distinct) :
    (Search.visit fragments budget search name).Distinct := by
  induction budget using Nat.strongRecOn generalizing path search name with
  | _ budget ih =>
      rcases hAlong.visit_cases fragments budget name with
        ⟨_, hVisit⟩ | ⟨_, hVisit⟩ | ⟨less, fragment, rfl, _, _, _, hVisit⟩
      · rw [hVisit]
        exact h.record hAlong _
      · rwa [hVisit]
      · rw [hVisit]
        have hEntered : (search.enter name).Distinct := h
        exact (hAlong.enter name).foldl_visit (motive := Distinct) hEntered
          fun _ _ _ hAlong hEarlier => ih less (Nat.lt_succ_self less) hAlong hEarlier

end Search

/-- Of every normal form, one walk is reported at most. -/
theorem pairwise_normalize_find (fragments : Fragments) :
    (find fragments).Pairwise (normalize · ≠ normalize ·) := by
  have hStart : Search.initial.Distinct := List.Pairwise.nil
  exact Search.visitAll_induct (motive := Search.Distinct) hStart
    fun _ _ _ hAlong hEarlier => hEarlier.visit hAlong

end Cycle

theorem SpreadCycle.simple {definitions : List Fragment} {walk : List String}
    (h : SpreadCycle definitions walk) : Cycle.Simple walk :=
  ⟨h.length, h.closed, h.distinct⟩

/-- Every walk that is reported is a cycle of spreads, and no two of them are phases of one cycle.
It is the normal form that tells cycles apart: closed walks have it in common exactly if they are
phases of one cycle, and it is itself the phase that starts at the least name. -/
theorem reported_cycles_differ_in_more_than_phase {definitions : List Fragment}
    (hNames : (definitions.map Fragment.name).Nodup) :
    (∀ walk ∈ Cycle.find (Document.byName definitions), SpreadCycle definitions walk) ∧
    (Cycle.find (Document.byName definitions)).Pairwise (¬ Cycle.IsPhaseOf · ·) ∧
    (∀ walk other, Cycle.Simple walk → Cycle.Simple other →
      (Cycle.normalize walk = Cycle.normalize other ↔ Cycle.IsPhaseOf walk other)) ∧
    ∀ walk, Cycle.Simple walk →
      Cycle.Simple (Cycle.normalize walk) ∧ Cycle.IsPhaseOf (Cycle.normalize walk) walk ∧
        ∃ first ∈ walk, (Cycle.normalize walk).head? = some first ∧
          ∀ name ∈ walk, first ≤ name := by
  have hCycles : ∀ walk ∈ Cycle.find (Document.byName definitions), SpreadCycle definitions walk :=
    fun _ hWalk => Cycle.spreadCycle_of_mem_find hNames hWalk
  refine ⟨hCycles, ?_, fun _ _ hWalk hOther => hWalk.normalize_eq_iff hOther,
    fun _ hWalk => ⟨hWalk.normalize, hWalk.isPhaseOf_normalize, hWalk.head?_normalize⟩⟩
  refine (Cycle.pairwise_normalize_find _).imp_of_mem fun hWalk hOther hApart hPhase => hApart ?_
  exact ((hCycles _ hWalk).simple.normalize_eq_iff (hCycles _ hOther).simple).mpr hPhase

/-- Two cycles through the same two fragments, one of them closed twice over. -/
def crossing : List Fragment :=
  [⟨"Hero", "Hero", ⟨1, 1⟩, [.field ⟨1, 2⟩ none "friend" [.spread ⟨1, 3⟩ "Friend"]]⟩,
    ⟨"Friend", "Hero", ⟨2, 1⟩,
      [.spread ⟨2, 2⟩ "Hero", .inline ⟨2, 3⟩ none [.spread ⟨2, 4⟩ "Hero"],
        .spread ⟨2, 5⟩ "Crew"]⟩,
    ⟨"Crew", "Hero", ⟨3, 1⟩, [.field ⟨3, 2⟩ none "crew" [.spread ⟨3, 3⟩ "Hero"]]⟩]

theorem crossing_reports_each_cycle_once :
    (crossing.map Fragment.name).Nodup ∧
      Cycle.find (Document.byName crossing) =
        [["Hero", "Friend", "Hero"], ["Hero", "Friend", "Crew", "Hero"]] ∧
      ¬ Cycle.IsPhaseOf ["Hero", "Friend", "Hero"] ["Hero", "Friend", "Crew", "Hero"] ∧
      Cycle.normalize ["Hero", "Friend", "Crew", "Hero"] = ["Crew", "Hero", "Friend", "Crew"] ∧
      Cycle.normalize ["Friend", "Crew", "Hero", "Friend"] =
        Cycle.normalize ["Hero", "Friend", "Crew", "Hero"] := by
  have hNames : (crossing.map Fragment.name).Nodup := by decide
  have hFound : Cycle.find (Document.byName crossing) =
      [["Hero", "Friend", "Hero"], ["Hero", "Friend", "Crew", "Hero"]] := by
    decide +kernel
  obtain ⟨hCycles, hApart, hNormal, _⟩ := reported_cycles_differ_in_more_than_phase hNames
  rw [hFound] at hCycles hApart
  have hLong : Cycle.Simple ["Hero", "Friend", "Crew", "Hero"] := (hCycles _ (by simp)).simple
  have hTurned : Cycle.Simple ["Friend", "Crew", "Hero", "Friend"] :=
    ⟨by decide, by decide, by decide⟩
  exact ⟨hNames, hFound, List.rel_of_pairwise_cons hApart List.mem_cons_self, by decide +kernel,
    (hNormal _ _ hTurned hLong).mpr (by decide)⟩

end ResponseModels
