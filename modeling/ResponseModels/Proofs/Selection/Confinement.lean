import ResponseModels.Selection.Cases
import ResponseModels.Proofs.Selection.Descent
import Mathlib.Data.List.Basic

/-! Collecting and flattening against two documents that differ only in fragments which no operation
leads to. Selections of an operation spread nothing but what is reached, and so do the selections of
a fragment that is reached; on such selections the two documents cannot be told apart. -/
namespace ResponseModels

open GraphQL

variable {document other : Document} {selections : List Selection}

namespace Cycle

/-- Both define the same under each of the names, and the fragments under them spread nothing but
such names. -/
structure AgreeOn (fragments fragments' : Fragments) (names : String → Prop) : Prop where
  same : ∀ {name}, names name → fragments'.get? name = fragments.get? name
  onward : ∀ {name fragment}, names name → fragments.get? name = some fragment →
    ∀ next ∈ Selection.spreadsAll fragment.selections, names next

/-- The fragments that are spread have ranks below the given ones in both rankings. -/
def BothBelow (fragments : Fragments) (rank rank' : String → Nat) (depth depth' : Nat)
    (spreads : List String) : Prop :=
  ∀ name ∈ spreads, name ∈ fragments.keys → rank name < depth ∧ rank' name < depth'

section Agreement

variable {fragments fragments' : Fragments} {names : String → Prop} {rank rank' : String → Nat}

theorem AgreeOn.mem_keys (h : AgreeOn fragments fragments' names) {name : String}
    (hName : names name) : name ∈ fragments'.keys ↔ name ∈ fragments.keys := by
  rw [← not_iff_not, ← OrderedMap.get?_eq_none_iff, ← OrderedMap.get?_eq_none_iff, h.same hName]

/-- Ranks fall on both sides from a fragment to those that it spreads. -/
theorem AgreeOn.bothBelow (h : AgreeOn fragments fragments' names)
    (hRanking : Ranking fragments rank) (hRanking' : Ranking fragments' rank') {name : String}
    {fragment : Fragment} (hName : names name) (hFound : fragments.get? name = some fragment)
    {depth depth' : Nat} (hDepth : rank name < depth + 1 ∧ rank' name < depth' + 1) :
    BothBelow fragments rank rank' depth depth' (Selection.spreadsAll fragment.selections) := by
  intro next hNext hDefined
  have hFalls := hRanking.falls hFound next hNext hDefined
  have hFound' : fragments'.get? name = some fragment := (h.same hName).trans hFound
  have hFalls' := hRanking'.falls hFound' next hNext
    ((h.mem_keys (h.onward hName hFound next hNext)).mpr hDefined)
  omega

/-- A search from a name on which they agree goes the same way in both. -/
theorem AgreeOn.visit_eq (h : AgreeOn fragments fragments' names)
    (hRanking : Ranking fragments rank) (hRanking' : Ranking fragments' rank')
    (budget budget' : Nat) (search : Search) (name : String)
    (hName : names name) (hBelow : BothBelow fragments rank rank' budget budget' [name]) :
    Search.visit fragments' budget' search name = Search.visit fragments budget search name := by
  induction budget generalizing budget' search name with
  | zero =>
      have hNone : fragments.get? name = none := by
        rw [OrderedMap.get?_eq_none_iff]
        intro hDefined
        have hDepth := hBelow name (List.mem_singleton.mpr rfl) hDefined
        omega
      unfold Search.visit
      rw [h.same hName, hNone]
  | succ budget ih =>
      unfold Search.visit
      rw [h.same hName]
      cases hFound : fragments.get? name with
      | none => rfl
      | some fragment =>
          have hDepth := hBelow name (List.mem_singleton.mpr rfl) (mem_keys_of_get? hFound)
          obtain ⟨budget', rfl⟩ : ∃ less, budget' = less + 1 :=
            Nat.exists_eq_succ_of_ne_zero (by omega)
          have hSpreads := h.bothBelow hRanking hRanking' hName hFound hDepth
          have hSame : ∀ search, ∀ next ∈ Selection.spreadsAll fragment.selections,
              Search.visit fragments' budget' search next =
                Search.visit fragments budget search next := by
            intro search next hNext
            refine ih budget' search next (h.onward hName hFound next hNext) ?_
            intro only hOnly
            exact hSpreads only (List.mem_singleton.mp hOnly ▸ hNext)
          dsimp only
          rw [List.foldl_ext _ _ (search.enter name) hSame]

/-- Whatever is finished on the way from such a name is such a name. -/
theorem AgreeOn.done_visit (h : AgreeOn fragments fragments' names) (budget : Nat)
    (search : Search) (name : String) (hName : names name)
    (hDone : ∀ known ∈ search.done, names known) :
    ∀ known ∈ (Search.visit fragments budget search name).done, names known := by
  induction budget using Nat.strongRecOn generalizing search name with
  | _ budget ih =>
      rcases Search.visit_cases fragments budget search name with
        ⟨_, hVisit⟩ | ⟨_, hVisit⟩ | ⟨less, fragment, rfl, _, _, hFound, hVisit⟩
      · rw [hVisit, Search.record]
        split <;> exact hDone
      · rwa [hVisit]
      · rw [hVisit]
        intro known hKnown
        rcases List.mem_append.mp hKnown with hKnown | hSame
        · have hEntered : ∀ known ∈ (search.enter name).done, names known := hDone
          refine List.foldlRecOn (motive := fun search : Search =>
            ∀ known ∈ search.done, names known) _ _ hEntered ?_ known hKnown
          intro search hDone next hNext
          exact ih less (Nat.lt_succ_self less) _ _ (h.onward hName hFound next hNext) hDone
        · rwa [List.mem_singleton.mp hSame]

end Agreement

end Cycle

namespace Document

/-- The fragments that operations lead to, defined or not: those that operations spread at any
depth, and those that such fragments spread in turn. -/
inductive Reached (document : Document) : String → Prop
  | spread {operation : Operation} {name : String} :
    operation ∈ document.operations → name ∈ Selection.spreadsAll operation.selections →
    Reached document name
  | onward {outer name : String} {fragment : Fragment} :
    Reached document outer → document.fragment? outer = some fragment →
    name ∈ Selection.spreadsAll fragment.selections → Reached document name

/-- The other document has the same file and the same operations, and defines the same fragments
under the names that are reached. -/
structure Resembles (document other : Document) : Prop where
  file : other.file = document.file
  operations : other.operations = document.operations
  fragments : ∀ name, document.Reached name → other.fragment? name = document.fragment? name

theorem Resembles.agreeOn (h : document.Resembles other) :
    Cycle.AgreeOn document.fragments other.fragments document.Reached :=
  ⟨fun hName => h.fragments _ hName, fun hName hFound _ hNext => .onward hName hFound hNext⟩

theorem Resembles.locate_eq (h : document.Resembles other) (position : Position) :
    other.locate position = document.locate position := by
  rw [locate, locate, h.file]

/-- Whatever the selections spread is reached. -/
def Confines (document : Document) (selections : List Selection) : Prop :=
  ∀ name ∈ Selection.spreadsAll selections, document.Reached name

theorem confines_operation {operation : Operation} (h : operation ∈ document.operations) :
    document.Confines operation.selections :=
  fun _ hName => .spread h hName

theorem confines_flatMap {α : Type} {items : List α} {selectionsOf : α → List Selection}
    (h : ∀ item ∈ items, document.Confines (selectionsOf item)) :
    document.Confines (items.flatMap selectionsOf) := by
  intro name hName
  obtain ⟨selection, hSelection, hSpreads⟩ := Selection.mem_spreadsAll.mp hName
  obtain ⟨item, hItem, hInner⟩ := List.mem_flatMap.mp hSelection
  exact h item hItem name (Selection.mem_spreadsAll.mpr ⟨selection, hInner, hSpreads⟩)

theorem Confines.inner (h : document.Confines selections) {selection : Selection}
    (hMem : selection ∈ selections) : document.Confines selection.inner :=
  fun name hName => h name (Selection.spreadsAll_inner_subset hMem hName)

/-- The operations lead to the same selections in both documents. -/
theorem Resembles.reachedCount_eq (h : document.Resembles other) (hDocument : document.Accepted)
    (hOther : other.Accepted) : other.reachedCount = document.reachedCount := by
  obtain ⟨rank, hRanking⟩ := hDocument.exists_ranking
  obtain ⟨rank', hRanking'⟩ := hOther.exists_ranking
  have hReached : ∀ name ∈ Selection.spreadsAll
      (document.operations.flatMap Operation.selections), document.Reached name :=
    confines_flatMap fun _ => confines_operation
  have hVisit : ∀ search, ∀ name ∈ Selection.spreadsAll
      (document.operations.flatMap Operation.selections),
      Cycle.Search.visit other.fragments other.fragments.size search name =
        Cycle.Search.visit document.fragments document.fragments.size search name := by
    intro search name hName
    refine h.agreeOn.visit_eq hRanking hRanking' _ _ search name (hReached name hName) ?_
    intro only hOnly hDefined
    have hSame := List.mem_singleton.mp hOnly
    exact ⟨hRanking.bounded only hDefined, hRanking'.bounded only
      ((h.agreeOn.mem_keys (hSame ▸ hReached name hName)).mpr hDefined)⟩
  have hFragments : other.reachedFragments = document.reachedFragments := by
    unfold reachedFragments
    dsimp only
    rw [h.operations, Cycle.Search.visitAll_eq_foldl, Cycle.Search.visitAll_eq_foldl,
      List.foldl_ext _ _ _ hVisit]
    refine List.filterMap_congr fun name hName => h.fragments name ?_
    refine List.foldlRecOn (motive := fun search : Cycle.Search =>
      ∀ known ∈ search.done, document.Reached known) _ _ (by simp [Cycle.Search.initial]) ?_ name
      hName
    exact fun search hDone next hNext =>
      h.agreeOn.done_visit _ search next (hReached next hNext) hDone
  rw [reachedCount, reachedCount, h.operations, hFragments]

end Document

/-- All selections in the tree spread nothing but what is reached. -/
def FragmentTree.Confined (document : Document) (tree : FragmentTree) : Prop :=
  ∀ subtree : FragmentTree, subtree.Within tree → document.Confines subtree.selections

theorem FragmentTree.Confined.within {tree subtree : FragmentTree} (h : tree.Confined document)
    (hWithin : subtree.Within tree) : subtree.Confined document :=
  fun inner hInner => h inner (hInner.trans hWithin)

theorem FragmentTree.confined_iff {tree : FragmentTree} : tree.Confined document ↔
    document.Confines tree.selections ∧ ∀ child ∈ tree.children, child.Confined document := by
  constructor
  · exact fun h => ⟨h tree (.self _), fun child hChild => h.within (.inner hChild (.self _))⟩
  · rintro ⟨hOwn, hChildren⟩ subtree hWithin
    rcases within_iff.mp hWithin with rfl | ⟨child, hChild, hInner⟩
    · exact hOwn
    · exact hChildren child hChild subtree hInner

namespace Setting

variable {setting : Setting} {type scope : SchemaType} {path : ModelPath} {tree : FragmentTree}

/-- What selections are read against, with another document. -/
def on (setting : Setting) (other : Document) : Setting := { setting with document := other }

@[simp] theorem on_schema (setting : Setting) (other : Document) :
    (setting.on other).schema = setting.schema := rfl

@[simp] theorem on_document (setting : Setting) (other : Document) :
    (setting.on other).document = other := rfl

@[simp] theorem conditionType_on (setting : Setting) (other : Document) :
    (setting.on other).conditionType = setting.conditionType := rfl

theorem Opens.confines {selection : Selection} {branch : Branch}
    (h : setting.Opens scope selection branch) (hMem : selection ∈ selections)
    (hConfines : setting.document.Confines selections) :
    setting.document.Confines branch.selections := by
  cases h with
  | @spread position name fragment condition hFragment _ =>
      have hName : setting.document.Reached name := hConfines name
        (Selection.mem_spreadsAll.mpr ⟨_, hMem, List.mem_singleton.mpr rfl⟩)
      exact fun _ hNext => .onward hName hFragment hNext
  | inlineOn _ => exact hConfines.inner hMem
  | inline => exact hConfines.inner hMem

theorem Stems.confined (h : setting.Stems selections tree)
    (hConfines : setting.document.Confines selections) : tree.Confined setting.document := by
  induction h with
  | intro hMem hOpens _ ih =>
      have hOwn := hOpens.confines hMem hConfines
      exact FragmentTree.confined_iff.mpr ⟨hOwn, fun child hChild => ih child hChild hOwn⟩

/-- The nodes that are merged in a tree carry selections of the tree. -/
theorem confines_of_treeFields (hTree : tree.Confined setting.document)
    {fields : List MergedField} (hFields : setting.treeFields path tree = .ok fields)
    {merged : MergedField} (hMerged : merged ∈ fields) :
    setting.document.Confines merged.nested := by
  obtain ⟨occurrences, hMerge, hOccurrences⟩ := Setting.merged_of_treeFields hFields
  have hFrom := hMerge.each merged hMerged
  refine Document.confines_flatMap fun node hNode => ?_
  obtain ⟨occurrence, hOccurrence, _, rfl⟩ := (hFrom.mem_nodes_iff node).mp hNode
  obtain ⟨subtree, hWithin, _, hSelects⟩ := ((hOccurrences occurrence).mp hOccurrence).holds
  exact (hTree subtree hWithin).inner hSelects

/-- Both ways to expand do the same with the fragments of the given names. -/
def ExpandsAlike (setting : Setting) (expand expand' : Expand) (spreads : List String) : Prop :=
  ∀ name ∈ spreads, ∀ fragment, setting.document.fragment? name = some fragment →
    ∀ condition fields, expand' condition fragment.selections fields =
      expand condition fragment.selections fields

section Resemblance

variable (hSame : setting.document.Resembles other)

include hSame

theorem mergeField_on : (setting.on other).mergeField = setting.mergeField := by
  funext type path fields node
  simp only [mergeField, on_document, hSame.locate_eq]

theorem subtreeIndex?_on : (setting.on other).subtreeIndex? = setting.subtreeIndex? := by
  funext subtrees selection
  cases selection <;> simp only [subtreeIndex?, on_document, hSame.locate_eq]

theorem flattenSelections_on :
    (setting.on other).flattenSelections = setting.flattenSelections := by
  funext path condition subtrees visited fields selections
  induction selections generalizing visited fields with
  | nil => simp only [flattenSelections]
  | cons selection rest ih =>
      cases selection <;>
        simp only [flattenSelections, mergeField_on hSame, subtreeIndex?_on hSame, ih]

/-- Flattening follows the tree and asks the document for nothing but its file. -/
theorem flattenInto_on (path : ModelPath) (tree : FragmentTree) :
    (setting.on other).flattenInto path tree = setting.flattenInto path tree := by
  induction tree using FragmentTree.induct with
  | node tree ih =>
      have hChildren : (setting.on other).flattenEach path tree.children =
          setting.flattenEach path tree.children := by
        rw [flattenEach_eq_map, flattenEach_eq_map]
        exact List.map_congr_left fun child hChild => by rw [ih child hChild]
      rw [← tree.eta, flattenInto, flattenInto, hChildren, flattenSelections_on hSame]

theorem treeFields_on : (setting.on other).treeFields = setting.treeFields := by
  funext path tree
  rw [treeFields, treeFields, flattenInto_on hSame]

end Resemblance

mutual

/-- A selection is gathered in the same way, if the fragments that it spreads are expanded so. -/
theorem gather_on (hSame : setting.document.Resembles other) {expand expand' : Expand} :
    ∀ (selection : Selection) (scope : SchemaType) (gathered : Gathered),
      (∀ name ∈ selection.spreads, setting.document.Reached name) →
      setting.ExpandsAlike expand expand' selection.spreads →
      gather (setting.on other) type path expand' scope gathered selection =
        gather setting type path expand scope gathered selection
  | .field position label name selections, _, _, _, _ => by
    rw [gather, gather, mergeField_on hSame]
  | .spread position name, _, _, hReached, hExpand => by
    have hName := List.mem_singleton.mpr (Eq.refl name)
    rw [gather, gather, on_document, hSame.fragments name (hReached name hName)]
    cases hFound : setting.document.fragment? name with
    | none => simp only [hSame.locate_eq]
    | some fragment =>
        simp only [hSame.locate_eq, conditionType_on, on_schema, hExpand name hName fragment hFound]
  | .inline position written selections, _, gathered, hReached, hExpand => by
    have hInner := fun condition =>
      gatherAll_on hSame selections condition ⟨gathered.fields, []⟩ hReached hExpand
    cases written <;>
      simp only [gather, hSame.locate_eq, on_document, conditionType_on, on_schema, hInner]

theorem gatherAll_on (hSame : setting.document.Resembles other) {expand expand' : Expand} :
    ∀ (selections : List Selection) (scope : SchemaType) (gathered : Gathered),
      setting.document.Confines selections →
      setting.ExpandsAlike expand expand' (Selection.spreadsAll selections) →
      gatherAll (setting.on other) type path expand' scope gathered selections =
        gatherAll setting type path expand scope gathered selections
  | [], _, _, _, _ => by rw [gatherAll, gatherAll]
  | selection :: rest, scope, gathered, hConfines, hExpand => by
    have hFirst := gather_on hSame selection scope gathered
      (fun name hName => hConfines name (List.mem_append_left _ hName))
      (fun name hName => hExpand name (List.mem_append_left _ hName))
    have hRest := fun next => gatherAll_on hSame rest scope next
      (fun name hName => hConfines name (List.mem_append_right _ hName))
      (fun name hName => hExpand name (List.mem_append_right _ hName))
    rw [gatherAll, gatherAll, hFirst]
    simp only [hRest]

end

/-- How deep spreads may be followed does not show, as long as it is deep enough for the ranks on
either side. -/
theorem gatherWithin_on (hSame : setting.document.Resembles other) {rank rank' : String → Nat}
    (hRanking : Cycle.Ranking setting.document.fragments rank)
    (hRanking' : Cycle.Ranking other.fragments rank') (depth depth' : Nat) (scope : SchemaType)
    (selections : List Selection) (fields : List MergedField)
    (hConfines : setting.document.Confines selections)
    (hBelow : Cycle.BothBelow setting.document.fragments rank rank' depth depth'
      (Selection.spreadsAll selections)) :
    (setting.on other).gatherWithin type path depth' scope selections fields =
      setting.gatherWithin type path depth scope selections fields := by
  induction depth generalizing depth' scope selections fields with
  | zero =>
      have hNone : ∀ expand expand',
          setting.ExpandsAlike expand expand' (Selection.spreadsAll selections) :=
        fun _ _ name hName fragment hFound =>
          absurd (hBelow name hName (Cycle.mem_keys_of_get? hFound)).1 (Nat.not_lt_zero _)
      cases depth' <;> exact gatherAll_on hSame selections scope _ hConfines (hNone _ _)
  | succ depth ih =>
      cases depth' with
      | zero =>
          refine gatherAll_on hSame selections scope _ hConfines ?_
          intro name hName fragment hFound
          exact absurd (hBelow name hName (Cycle.mem_keys_of_get? hFound)).2 (Nat.not_lt_zero _)
      | succ depth' =>
          refine gatherAll_on hSame selections scope _ hConfines ?_
          intro name hName fragment hFound condition fields
          have hReached := hConfines name hName
          exact ih depth' condition fragment.selections fields
            (fun next hNext => .onward hReached hFound hNext)
            (hSame.agreeOn.bothBelow hRanking hRanking' hReached hFound
              (hBelow name hName (Cycle.mem_keys_of_get? hFound)))

section Accepted

variable (hSame : setting.document.Resembles other) (hDocument : setting.document.Accepted)
  (hOther : other.Accepted) (hConfines : setting.document.Confines selections)

include hSame hDocument hOther hConfines

theorem collectIn_on (scope type : SchemaType) (path : ModelPath) :
    (setting.on other).collectIn scope type selections path =
      setting.collectIn scope type selections path := by
  obtain ⟨rank, hRanking⟩ := hDocument.exists_ranking
  obtain ⟨rank', hRanking'⟩ := hOther.exists_ranking
  have hBelow : Cycle.BothBelow setting.document.fragments rank rank'
      setting.document.fragments.size other.fragments.size (Selection.spreadsAll selections) :=
    fun name hName hDefined => ⟨hRanking.bounded name hDefined, hRanking'.bounded name
      ((hSame.agreeOn.mem_keys (hConfines name hName)).mpr hDefined)⟩
  rw [collectIn, collectIn, on_document,
    gatherWithin_on hSame hRanking hRanking' _ _ scope selections [] hConfines hBelow]

theorem typeCases_on (declared : SchemaType) (path : ModelPath) :
    (setting.on other).typeCases declared selections path =
      setting.typeCases declared selections path := by
  have hCase : (setting.on other).typeCase declared selections path =
      setting.typeCase declared selections path := by
    funext possible
    simp only [typeCase, on_schema, collectIn_on hSame hDocument hOther hConfines]
  rw [typeCases, typeCases, hCase, on_schema]

end Accepted

end Setting

end ResponseModels
