import ResponseModels.Proofs.Document.Acyclic

/-! The part of a document that its operations lead to: their own selections, and those of the
fragments that they spread, directly or through other fragments. -/
namespace ResponseModels

open GraphQL

namespace GraphQL.Selection

variable {selection : Selection} {selections : List Selection}

theorem mem_spreadsAll {name : String} :
    name ∈ spreadsAll selections ↔ ∃ selection ∈ selections, name ∈ selection.spreads := by
  induction selections with
  | nil => simp [spreadsAll]
  | cons first rest ih => simp [spreadsAll, ih]

theorem spreadsAll_inner_subset (h : selection ∈ selections) :
    spreadsAll selection.inner ⊆ spreadsAll selections := by
  intro name hName
  refine mem_spreadsAll.mpr ⟨selection, h, ?_⟩
  cases selection with
  | field => exact hName
  | spread => cases hName
  | inline => exact hName

theorem countAll_inner_lt (h : selection ∈ selections) :
    countAll selection.inner < countAll selections := by
  induction selections with
  | nil => cases h
  | cons first rest ih =>
      rcases List.mem_cons.mp h with rfl | h
      · exact countAll_inner_lt_cons selection rest
      · exact Nat.lt_trans (ih h) (countAll_lt_cons first rest)

theorem subset_nodesOf (selections : List Selection) : selections ⊆ nodesOf selections :=
  fun _ h => (nodesOf_perm selections).mem_iff.mpr (List.mem_append_left _ h)

theorem inner_subset_nodesOf (h : selection ∈ nodesOf selections) :
    selection.inner ⊆ nodesOf selections := fun _ hInner =>
  (nodesOf_perm selections).mem_iff.mpr
    (List.mem_append_right _ (List.mem_flatMap.mpr ⟨selection, h, hInner⟩))

/-- What a selection spreads at any depth is spread by the list that it stands in. -/
theorem spreads_subset_of_mem_nodesOf (h : selection ∈ nodesOf selections) :
    selection.spreads ⊆ spreadsAll selections := by
  induction hSize : countAll selections using Nat.strongRecOn generalizing selections with
  | _ size ih =>
      obtain ⟨first, hFirst, hNode⟩ := mem_nodesOf.mp h
      rw [nodes_eq] at hNode
      rcases List.mem_cons.mp hNode with rfl | hNode
      · exact fun name hName => mem_spreadsAll.mpr ⟨selection, hFirst, hName⟩
      · exact List.Subset.trans (ih _ (hSize ▸ countAll_inner_lt hFirst) hNode rfl)
          (spreadsAll_inner_subset hFirst)

end GraphQL.Selection

namespace Cycle

variable {fragments : Fragments} {rank : String → Nat}

/-- Among fragments that are ranked no search finds a cycle. The ranks fall along the path by which
it comes to a fragment, so the fragment is not on it. -/
theorem Ranking.found_visit (h : Ranking fragments rank) (budget : Nat) {path : List String}
    {search : Search} (name : String) (hAlong : search.Along path) (hFree : search.found = [])
    (hPath : ∀ outer ∈ path, outer ∈ fragments.keys ∧
      (name ∈ fragments.keys → rank name < rank outer)) :
    (Search.visit fragments budget search name).found = [] := by
  induction budget using Nat.strongRecOn generalizing path search name with
  | _ budget ih =>
      rcases hAlong.visit_cases fragments budget name with
        ⟨hOn, _⟩ | ⟨_, hVisit⟩ | ⟨less, fragment, rfl, _, _, hFound, hVisit⟩
      · exact absurd ((hPath name hOn).2 (hPath name hOn).1) (Nat.lt_irrefl _)
      · rwa [hVisit]
      · rw [hVisit]
        have hName := mem_keys_of_get? hFound
        -- Coming back leaves alone what was found.
        refine (hAlong.enter name).foldl_visit (motive := fun search : Search => search.found = [])
          hFree fun search next hNext hAlong hFree => ?_
        refine ih less (Nat.lt_succ_self less) next hAlong hFree fun outer hOuter => ?_
        have hFalls := h.falls hFound next hNext
        rcases List.mem_append.mp hOuter with hOuter | hOuter
        · obtain ⟨hDefined, hAbove⟩ := hPath outer hOuter
          exact ⟨hDefined, fun hNextDefined => Nat.lt_trans (hFalls hNextDefined) (hAbove hName)⟩
        · obtain rfl := List.mem_singleton.mp hOuter
          exact ⟨hName, hFalls⟩

theorem Settled.closed {done : List String} (h : Settled fragments done) {name next : String}
    {fragment : Fragment} (hName : name ∈ done) (hFound : fragments.get? name = some fragment)
    (hNext : next ∈ Selection.spreadsAll fragment.selections) (hDefined : next ∈ fragments.keys) :
    next ∈ done := by
  induction h with
  | nil => cases hName
  | @snoc done last known _ _ hLast hSpreads ih =>
      rcases List.mem_append.mp hName with hOld | hSame
      · exact List.mem_append_left _ (ih hOld)
      · obtain rfl := List.mem_singleton.mp hSame
        obtain rfl : known = fragment := Option.some.inj (hLast.symm.trans hFound)
        exact List.mem_append_left _ (hSpreads next hNext hDefined)

/-- A search from given names finishes all of them that are defined, and what they lead to. -/
theorem Ranking.settled (h : Ranking fragments rank) (names : List String) :
    let done := (Search.visitAll fragments names).done
    Settled fragments done ∧ ∀ name ∈ names, name ∈ fragments.keys → name ∈ done := by
  refine Search.settled_visitAll names ?_
  exact Search.visitAll_induct (motive := fun search : Search => search.found = []) rfl
    fun search name _ hAlong hFree => h.found_visit _ name hAlong hFree (by simp)

end Cycle

namespace Document

variable {document : Document}

/-- The selections that operations lead to, at any depth. -/
def reachedNodes (document : Document) : List Selection :=
  Selection.nodesOf (document.operations.flatMap Operation.selections) ++
    Selection.nodesOf (document.reachedFragments.flatMap Fragment.selections)

theorem length_reachedNodes (document : Document) :
    document.reachedNodes.length = document.reachedCount := by
  simp only [reachedNodes, reachedCount, List.length_append, Selection.length_nodesOf]

theorem reachedFragments_subset : document.reachedFragments ⊆ document.fragments.values := by
  intro fragment hFragment
  obtain ⟨name, _, hFound⟩ := List.mem_filterMap.mp hFragment
  exact mem_values_of_fragment? hFound

theorem reachedNodes_subset : document.reachedNodes ⊆ document.nodes := by
  intro selection hSelection
  rcases List.mem_append.mp hSelection with hMem | hMem
  · exact List.mem_append_left _ hMem
  · refine List.mem_append_right _ ?_
    obtain ⟨first, hFirst, hNode⟩ := Selection.mem_nodesOf.mp hMem
    obtain ⟨fragment, hFragment, hInner⟩ := List.mem_flatMap.mp hFirst
    exact Selection.mem_nodesOf.mpr
      ⟨first, List.mem_flatMap.mpr ⟨fragment, reachedFragments_subset hFragment, hInner⟩, hNode⟩

theorem selections_subset_reachedNodes {operation : Operation}
    (h : operation ∈ document.operations) : operation.selections ⊆ document.reachedNodes :=
  fun _ hMem => List.mem_append_left _
    (Selection.subset_nodesOf _ (List.mem_flatMap.mpr ⟨operation, h, hMem⟩))

theorem inner_subset_reachedNodes {selection : Selection}
    (h : selection ∈ document.reachedNodes) : selection.inner ⊆ document.reachedNodes := by
  intro inner hInner
  rcases List.mem_append.mp h with h | h
  · exact List.mem_append_left _ (Selection.inner_subset_nodesOf h hInner)
  · exact List.mem_append_right _ (Selection.inner_subset_nodesOf h hInner)

/-- A fragment that is spread in the part that is reached belongs to it. -/
theorem Accepted.fragment_subset_reachedNodes (hDocument : document.Accepted) {position : Position}
    {name : String} {fragment : Fragment} (h : .spread position name ∈ document.reachedNodes)
    (hFound : document.fragment? name = some fragment) :
    fragment.selections ⊆ document.reachedNodes := by
  obtain ⟨rank, hRanking⟩ := hDocument.exists_ranking
  obtain ⟨hSettled, hSpread⟩ := hRanking.settled
    (Selection.spreadsAll (document.operations.flatMap Operation.selections))
  have hDefined : name ∈ document.fragments.keys := Cycle.mem_keys_of_get? hFound
  have hName : ∀ selections, .spread position name ∈ Selection.nodesOf selections →
      name ∈ Selection.spreadsAll selections := fun selections hNode =>
    Selection.spreads_subset_of_mem_nodesOf hNode (List.mem_singleton.mpr rfl)
  have hReached : fragment ∈ document.reachedFragments := by
    refine List.mem_filterMap.mpr ⟨name, ?_, hFound⟩
    rcases List.mem_append.mp h with h | h
    · exact hSpread name (hName _ h) hDefined
    · obtain ⟨selection, hSelection, hSpreads⟩ := Selection.mem_spreadsAll.mp (hName _ h)
      obtain ⟨outer, hOuter, hMem⟩ := List.mem_flatMap.mp hSelection
      obtain ⟨other, hOther, hOuterFound⟩ := List.mem_filterMap.mp hOuter
      exact hSettled.closed hOther hOuterFound
        (Selection.mem_spreadsAll.mpr ⟨selection, hMem, hSpreads⟩) hDefined
  exact fun _ hMem => List.mem_append_right _
    (Selection.subset_nodesOf _ (List.mem_flatMap.mpr ⟨fragment, hReached, hMem⟩))

end Document

end ResponseModels
