import ResponseModels.Proofs.Selection.Nesting
import Mathlib.Data.List.Chain
import Mathlib.Data.List.TakeWhile

/-! Fragments are accepted exactly when their names differ and no spreads lead from a fragment
back to itself. The walks that the search reports are followed back to the path on which it met
them, so each is a cycle; that it reports one whenever there is one was shown by ranking the
fragments. -/
namespace ResponseModels

open GraphQL

namespace GraphQL.Selection

/-- The selection spreads the fragment, itself or in one of the selections inside it. -/
inductive Spreads : Selection → String → Prop
  | spread {position : Position} {fragment : String} :
    Spreads (.spread position fragment) fragment
  | field {position : Position} {label : Option String} {name fragment : String}
      {selections : List Selection} {inner : Selection} :
    inner ∈ selections → Spreads inner fragment →
    Spreads (.field position label name selections) fragment
  | inline {position : Position} {condition : Option String} {fragment : String}
      {selections : List Selection} {inner : Selection} :
    inner ∈ selections → Spreads inner fragment →
    Spreads (.inline position condition selections) fragment

mutual

theorem mem_spreads_iff (fragment : String) :
    ∀ selection : Selection, fragment ∈ selection.spreads ↔ selection.Spreads fragment
  | .field position label name selections => by
    rw [spreads, mem_spreadsAll_iff fragment selections]
    constructor
    · rintro ⟨inner, hInner, hSpreads⟩
      exact .field hInner hSpreads
    · rintro (_ | ⟨hInner, hSpreads⟩)
      exact ⟨_, hInner, hSpreads⟩
  | .spread position name => by
    rw [spreads, List.mem_singleton]
    constructor
    · rintro rfl
      exact .spread
    · rintro ⟨⟩
      rfl
  | .inline position condition selections => by
    rw [spreads, mem_spreadsAll_iff fragment selections]
    constructor
    · rintro ⟨inner, hInner, hSpreads⟩
      exact .inline hInner hSpreads
    · rintro (_ | _ | ⟨hInner, hSpreads⟩)
      exact ⟨_, hInner, hSpreads⟩

theorem mem_spreadsAll_iff (fragment : String) :
    ∀ selections : List Selection, fragment ∈ spreadsAll selections ↔
      ∃ selection ∈ selections, selection.Spreads fragment
  | [] => by simp [spreadsAll]
  | selection :: rest => by
    rw [spreadsAll, List.mem_append, mem_spreads_iff fragment selection,
      mem_spreadsAll_iff fragment rest]
    simp

end

end GraphQL.Selection

/-- The body of a definition of the first name spreads the second, which is defined too. -/
def SpreadsTo (definitions : List Fragment) (name next : String) : Prop :=
  (∃ fragment ∈ definitions, fragment.name = name ∧
    ∃ selection ∈ fragment.selections, selection.Spreads next) ∧
  next ∈ definitions.map Fragment.name

/-- A walk along spreads from a fragment back to itself, on which nothing else comes twice. -/
structure SpreadCycle (definitions : List Fragment) (walk : List String) : Prop where
  length : 2 ≤ walk.length
  closed : walk.head? = walk.getLast?
  distinct : walk.dropLast.Nodup
  defined : ∀ name ∈ walk, name ∈ definitions.map Fragment.name
  spreads : walk.IsChain (SpreadsTo definitions)

/-- Whoever walks round a cycle comes from its first fragment back to it. -/
theorem SpreadCycle.transGen {definitions : List Fragment} {walk : List String}
    (h : SpreadCycle definitions walk) :
    ∃ name, Relation.TransGen (SpreadsTo definitions) name name := by
  obtain ⟨name, rest, rfl⟩ : ∃ name rest, walk = name :: rest :=
    List.exists_cons_of_length_pos (Nat.lt_of_lt_of_le Nat.two_pos h.length)
  have hRest : rest ≠ [] := by
    rintro rfl
    exact absurd h.length (by simp)
  have hLast : rest.getLast hRest = name := by
    have hClosed := h.closed
    rw [List.head?_cons, List.getLast?_cons, List.getLast?_eq_some_getLast hRest,
      Option.getD_some] at hClosed
    exact (Option.some.inj hClosed).symm
  have hPairs : (name :: rest).Pairwise (Relation.TransGen (SpreadsTo definitions)) :=
    (h.spreads.imp fun _ _ => Relation.TransGen.single).pairwise
  exact ⟨name, hLast ▸ (List.pairwise_cons.mp hPairs).1 _ (List.getLast_mem hRest)⟩

namespace Document

variable {file : SourcePath} {definitions : List Fragment}

/-- The definitions under their names, in the order in which they stand. -/
def byName (definitions : List Fragment) : Fragments :=
  ⟨definitions.map fun fragment => (fragment.name, fragment)⟩

theorem keys_byName (definitions : List Fragment) :
    (byName definitions).keys = definitions.map Fragment.name := by
  simp [byName, OrderedMap.keys]

theorem get?_byName (hNames : (definitions.map Fragment.name).Nodup) {name : String}
    {fragment : Fragment} :
    (byName definitions).get? name = some fragment ↔
      fragment ∈ definitions ∧ fragment.name = name := by
  constructor
  · intro hFound
    obtain ⟨found, hMem, hEntry⟩ := List.mem_map.mp (OrderedMap.mem_entries_of_get? hFound)
    cases hEntry
    exact ⟨hMem, rfl⟩
  · rintro ⟨hMem, rfl⟩
    exact OrderedMap.get?_of_mem_entries (by rwa [keys_byName]) (List.mem_map_of_mem hMem)

/-- Definitions go in behind those there were, as long as their names are new. -/
theorem foldlM_addFragment_eq_ok_iff (definitions : List Fragment) (known result : Fragments) :
    definitions.foldlM (addFragment file) known = .ok result ↔
      ((definitions.map Fragment.name).Nodup ∧
        ∀ fragment ∈ definitions, fragment.name ∉ known.keys) ∧
      result = ⟨known.entries ++ (byName definitions).entries⟩ := by
  induction definitions generalizing known with
  | nil => simp [byName]
  | cons fragment rest ih =>
      rw [List.foldlM_cons, Outcome.bind_eq_ok_iff]
      cases hFound : known.get? fragment.name with
      | some earlier =>
          have hKnown : fragment.name ∈ known.keys := Cycle.mem_keys_of_get? hFound
          simp [addFragment, hFound, hKnown]
      | none =>
          have hNew : fragment.name ∉ known.keys := (known.get?_eq_none_iff _).mp hFound
          have hInsert : known.insert fragment.name fragment =
              ⟨known.entries ++ [(fragment.name, fragment)]⟩ := by
            rw [OrderedMap.insert, if_neg (by simp [OrderedMap.contains, hFound])]
          have hKeys : (known.insert fragment.name fragment).keys =
              known.keys ++ [fragment.name] := by
            rw [OrderedMap.keys_insert, if_neg hNew]
          simp only [addFragment, hFound, Except.ok.injEq, exists_eq_left', ih, hKeys]
          rw [hInsert]
          simp only [byName, List.map_cons, List.nodup_cons, List.mem_append, List.mem_cons,
            List.not_mem_nil, or_false, not_or, List.mem_map, List.append_assoc,
            List.singleton_append, forall_eq_or_imp]
          constructor
          · rintro ⟨⟨hNodup, hRest⟩, rfl⟩
            refine ⟨⟨⟨?_, hNodup⟩, hNew, fun other hOther => (hRest other hOther).1⟩, rfl⟩
            rintro ⟨other, hOther, hSame⟩
            exact (hRest other hOther).2 hSame
          · rintro ⟨⟨⟨hFirst, hNodup⟩, _, hRest⟩, rfl⟩
            refine ⟨⟨hNodup, fun other hOther => ⟨hRest other hOther, fun hSame => ?_⟩⟩, rfl⟩
            exact hFirst ⟨other, hOther, hSame⟩

/-- Without a name twice, all hangs on what the search for cycles finds. -/
theorem collectFragments_eq (hNames : (definitions.map Fragment.name).Nodup) :
    collectFragments file definitions =
      match Cycle.find (byName definitions) with
      | cycle :: _ => .error (.fragmentCycle cycle)
      | [] => .ok (byName definitions) := by
  have hFold : definitions.foldlM (addFragment file) .empty = .ok (byName definitions) :=
    (foldlM_addFragment_eq_ok_iff definitions .empty _).mpr
      ⟨⟨hNames, fun _ _ hMem => absurd hMem List.not_mem_nil⟩, rfl⟩
  unfold collectFragments
  rw [hFold]
  cases hFind : Cycle.find (byName definitions) with
  | nil =>
      simp only [bind, Except.bind, hFind]
      rfl
  | cons cycle others =>
      simp only [bind, Except.bind, hFind]
      rfl

theorem nodup_of_collectFragments {fragments : Fragments}
    (h : collectFragments file definitions = .ok fragments) :
    (definitions.map Fragment.name).Nodup := by
  unfold collectFragments at h
  rw [Outcome.bind_eq_ok_iff] at h
  obtain ⟨collected, hFold, _⟩ := h
  exact ((foldlM_addFragment_eq_ok_iff definitions .empty collected).mp hFold).1.1

end Document

namespace Cycle

variable {definitions : List Fragment}

open Document (byName keys_byName get?_byName)

theorem spreadsTo_iff (hNames : (definitions.map Fragment.name).Nodup) {name next : String} :
    SpreadsTo definitions name next ↔ ∃ fragment, (byName definitions).get? name = some fragment ∧
      next ∈ Selection.spreadsAll fragment.selections ∧ next ∈ (byName definitions).keys := by
  unfold SpreadsTo
  simp only [get?_byName hNames, keys_byName, Selection.mem_spreadsAll_iff]
  constructor
  · rintro ⟨⟨fragment, hMem, hName, hSpreads⟩, hDefined⟩
    exact ⟨fragment, ⟨hMem, hName⟩, hSpreads, hDefined⟩
  · rintro ⟨fragment, ⟨hMem, hName⟩, hSpreads, hDefined⟩
    exact ⟨⟨fragment, hMem, hName, hSpreads⟩, hDefined⟩

/-- Ranked fragments spread each other in no cycle, as every spread leads down. -/
theorem Ranking.not_transGen (hNames : (definitions.map Fragment.name).Nodup)
    {rank : String → Nat} (h : Ranking (byName definitions) rank) (name : String) :
    ¬ Relation.TransGen (SpreadsTo definitions) name name := by
  have hFalls : ∀ {first last}, Relation.TransGen (SpreadsTo definitions) first last →
      rank last < rank first := by
    intro first last hWay
    induction hWay with
    | single hSpreads =>
        obtain ⟨fragment, hFound, hNext, hDefined⟩ := (spreadsTo_iff hNames).mp hSpreads
        exact h.falls hFound _ hNext hDefined
    | tail _ hSpreads ih =>
        obtain ⟨fragment, hFound, hNext, hDefined⟩ := (spreadsTo_iff hNames).mp hSpreads
        exact Nat.lt_trans (h.falls hFound _ hNext hDefined) ih
  exact fun hCycle => Nat.lt_irrefl _ (hFalls hCycle)

/-- A list from the first place of a name on. -/
theorem exists_dropWhile_eq_cons {names : List String} {name : String} (h : name ∈ names) :
    ∃ rest, names.dropWhile (· ≠ name) = name :: rest := by
  cases hDrop : names.dropWhile (· ≠ name) with
  | nil => simpa using List.dropWhile_eq_nil_iff.mp hDrop name h
  | cons first rest =>
      have hFirst := List.head?_dropWhile_not (· ≠ name) names
      rw [hDrop] at hFirst
      exact ⟨rest, by rw [show first = name by simpa using hFirst]⟩

/-- The way by which a search has come to a fragment: along spreads, and through no fragment
twice. An undefined fragment may be spread at its end, but leads nowhere. -/
structure CameAlong (definitions : List Fragment) (path : List String) (name : String) :
    Prop where
  distinct : path.Nodup
  defined : ∀ passed ∈ path, passed ∈ definitions.map Fragment.name
  spreads : name ∈ definitions.map Fragment.name → (path ++ [name]).IsChain (SpreadsTo definitions)

namespace CameAlong

variable {path : List String} {name : String}

/-- What is met again on the way closes a cycle. -/
theorem spreadCycle (h : CameAlong definitions path name) (hMem : name ∈ path) :
    SpreadCycle definitions (path.dropWhile (· ≠ name) ++ [name]) := by
  obtain ⟨rest, hRest⟩ := exists_dropWhile_eq_cons hMem
  have hSuffix : name :: rest <:+ path := hRest ▸ List.dropWhile_suffix _
  rw [hRest]
  refine ⟨by simp, by rw [List.getLast?_concat]; rfl, ?_, ?_, ?_⟩
  · rw [List.dropLast_concat]
    exact h.distinct.sublist hSuffix.sublist
  · intro passed hPassed
    rcases List.mem_append.mp hPassed with hPassed | hPassed
    · exact h.defined passed (hSuffix.subset hPassed)
    · rw [List.mem_singleton.mp hPassed]
      exact h.defined name hMem
  · obtain ⟨front, rfl⟩ := hSuffix
    have hChain := h.spreads (h.defined name hMem)
    rw [List.append_assoc] at hChain
    exact hChain.right_of_append

/-- The way goes on from a fragment that is not on it to those that the fragment spreads. -/
theorem onward (hNames : (definitions.map Fragment.name).Nodup)
    (h : CameAlong definitions path name) (hNew : name ∉ path) {fragment : Fragment}
    (hFound : (byName definitions).get? name = some fragment) {next : String}
    (hNext : next ∈ Selection.spreadsAll fragment.selections) :
    CameAlong definitions (path ++ [name]) next := by
  have hDefined : name ∈ definitions.map Fragment.name :=
    keys_byName definitions ▸ mem_keys_of_get? hFound
  refine ⟨?_, ?_, fun hNextDefined => ?_⟩
  · exact List.nodup_append.mpr ⟨h.distinct, by simp, by grind⟩
  · intro passed hPassed
    rcases List.mem_append.mp hPassed with hPassed | hPassed
    · exact h.defined passed hPassed
    · rwa [List.mem_singleton.mp hPassed]
  · have hSpreads : SpreadsTo definitions name next :=
      (spreadsTo_iff hNames).mpr ⟨fragment, hFound, hNext, by rwa [keys_byName]⟩
    refine (h.spreads hDefined).append (.singleton _) ?_
    simpa using hSpreads

end CameAlong

namespace Search

/-- All that has been found are cycles. -/
def Truthful (definitions : List Fragment) (search : Search) : Prop :=
  ∀ walk ∈ search.found, SpreadCycle definitions walk

theorem Truthful.record {search : Search} (h : search.Truthful definitions)
    {walk : List String} (hWalk : SpreadCycle definitions walk) :
    (search.record walk).Truthful definitions := by
  unfold Search.record
  split
  · exact h
  · intro other hOther
    rcases List.mem_append.mp hOther with hOther | hOther
    · exact h other hOther
    · rwa [List.mem_singleton.mp hOther]

/-- One visit reports nothing but cycles. The induction is on the budget, with the path growing by
one fragment at every level. -/
theorem Truthful.visit (hNames : (definitions.map Fragment.name).Nodup) {budget : Nat}
    {path : List String} {search : Search} {name : String} (hAlong : search.Along path)
    (h : search.Truthful definitions) (hCame : CameAlong definitions path name) :
    (Search.visit (byName definitions) budget search name).Truthful definitions := by
  induction budget using Nat.strongRecOn generalizing path search name with
  | _ budget ih =>
      rcases hAlong.visit_cases (byName definitions) budget name with
        ⟨hOn, hVisit⟩ | ⟨_, hVisit⟩ | ⟨less, fragment, rfl, hOff, _, hFound, hVisit⟩
      · rw [hVisit]
        exact h.record (hCame.spreadCycle hOn)
      · rwa [hVisit]
      · rw [hVisit]
        have hEntered : (search.enter name).Truthful definitions := h
        exact (hAlong.enter name).foldl_visit (motive := Truthful definitions) hEntered
          fun _ next hNext hAlong hOther =>
            ih less (Nat.lt_succ_self less) hAlong hOther (hCame.onward hNames hOff hFound hNext)

end Search

/-- Whatever is reported is a cycle. -/
theorem spreadCycle_of_mem_find (hNames : (definitions.map Fragment.name).Nodup)
    {walk : List String} (h : walk ∈ find (byName definitions)) :
    SpreadCycle definitions walk := by
  have hStart : Search.initial.Truthful definitions := fun _ hMem => absurd hMem List.not_mem_nil
  refine Search.visitAll_induct (motive := Search.Truthful definitions) hStart
    (fun search name _ hAlong hSearch => ?_) walk h
  exact hSearch.visit hNames hAlong ⟨List.nodup_nil, by simp, fun _ => .singleton _⟩

/-- Nothing is reported exactly when there is no cycle. -/
theorem find_eq_nil_iff (hNames : (definitions.map Fragment.name).Nodup) :
    find (byName definitions) = [] ↔
      ∀ name, ¬ Relation.TransGen (SpreadsTo definitions) name name := by
  constructor
  · intro hNone
    obtain ⟨rank, hRanking⟩ := exists_ranking hNone
    exact hRanking.not_transGen hNames
  · intro hAcyclic
    refine List.eq_nil_iff_forall_not_mem.mpr fun walk hWalk => ?_
    obtain ⟨name, hCycle⟩ := (spreadCycle_of_mem_find hNames hWalk).transGen
    exact hAcyclic name hCycle

end Cycle

/-- Definitions are accepted exactly when their names differ and none is reached from itself along
spreads. Where only the latter fails, the walk in the error is a cycle. -/
theorem fragments_accepted_iff_acyclic (file : SourcePath) (definitions : List Fragment) :
    ((∃ fragments, Document.collectFragments file definitions = .ok fragments) ↔
      (definitions.map Fragment.name).Nodup ∧
        ∀ name, ¬ Relation.TransGen (SpreadsTo definitions) name name) ∧
    ((definitions.map Fragment.name).Nodup → ∀ cause,
      Document.collectFragments file definitions = .error cause →
        ∃ walk, cause = .fragmentCycle walk ∧ SpreadCycle definitions walk) := by
  refine ⟨⟨?_, ?_⟩, ?_⟩
  · rintro ⟨fragments, hCollected⟩
    have hNames := Document.nodup_of_collectFragments hCollected
    refine ⟨hNames, (Cycle.find_eq_nil_iff hNames).mp ?_⟩
    rw [Document.collectFragments_eq hNames] at hCollected
    split at hCollected
    · cases hCollected
    · assumption
  · rintro ⟨hNames, hAcyclic⟩
    have hNone := (Cycle.find_eq_nil_iff hNames).mpr hAcyclic
    exact ⟨_, by rw [Document.collectFragments_eq hNames, hNone]⟩
  · intro hNames cause hFailed
    rw [Document.collectFragments_eq hNames] at hFailed
    split at hFailed
    · rename_i walk rest hFound
      cases hFailed
      exact ⟨walk, rfl, Cycle.spreadCycle_of_mem_find hNames (hFound ▸ List.mem_cons_self)⟩
    · cases hFailed

/-- Fragments of which the first leads into a cycle of the two others: through a field, through an
inline fragment, and past a fragment that is not defined. -/
def entangled : List Fragment :=
  [⟨"Entry", "Query", ⟨1, 1⟩, [.field ⟨1, 2⟩ none "hero" [.spread ⟨1, 3⟩ "Hero"]]⟩,
    ⟨"Hero", "Hero", ⟨2, 1⟩,
      [.spread ⟨2, 2⟩ "Missing", .inline ⟨2, 3⟩ none [.spread ⟨2, 4⟩ "Friend"]]⟩,
    ⟨"Friend", "Hero", ⟨3, 1⟩, [.field ⟨3, 2⟩ none "friend" [.spread ⟨3, 3⟩ "Hero"]]⟩]

theorem entangled_reports_cycle :
    (entangled.map Fragment.name).Nodup ∧
      Document.collectFragments ⟨"queries.graphql"⟩ entangled =
        .error (.fragmentCycle ["Hero", "Friend", "Hero"]) ∧
      SpreadCycle entangled ["Hero", "Friend", "Hero"] := by
  have hNames : (entangled.map Fragment.name).Nodup := by decide
  have hFailed : Document.collectFragments ⟨"queries.graphql"⟩ entangled =
      .error (.fragmentCycle ["Hero", "Friend", "Hero"]) := by
    rw [Document.collectFragments_eq hNames]
    have hFound : Cycle.find (Document.byName entangled) = [["Hero", "Friend", "Hero"]] := by
      decide +kernel
    rw [hFound]
  obtain ⟨walk, hSame, hCycle⟩ :=
    (fragments_accepted_iff_acyclic ⟨"queries.graphql"⟩ entangled).2 hNames _ hFailed
  cases hSame
  exact ⟨hNames, hFailed, hCycle⟩

end ResponseModels
