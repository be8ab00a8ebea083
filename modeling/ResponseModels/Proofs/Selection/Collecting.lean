import ResponseModels.Proofs.Selection.Expansion

/-! What collecting a selection set comes to: the trees that are grown from it, and the fields
that are merged from the nodes reached. The bound on the depth of spreads never shows, as
spreads can be followed no deeper than fragments are ranked. -/
namespace ResponseModels

open GraphQL

namespace Setting

variable {setting : Setting} {type scope : SchemaType} {path : ModelPath} {expand : Expand}
  {gathered next : Gathered}

/-- What has been gathered from selections on `scope` at `type`, starting from some fields. The
nodes merged are those that the selections list, some of them perhaps not each time. -/
structure Gathering (setting : Setting) (type : SchemaType) (path : ModelPath)
    (scope : SchemaType) (selections : List Selection) (fields : List MergedField)
    (gathered : Gathered) : Prop where
  grown : setting.Grown type scope selections gathered.fragments
  listed : ∃ nodes all : List FieldNode,
    setting.mergeAll path fields (nodes.map (⟨type, ·⟩)) = .ok gathered.fields ∧
    setting.Lists type scope selections all ∧ Repeats.Alike nodes all

/-- The nodes merged are those that are reached. -/
theorem Gathering.merged {selections : List Selection} {fields : List MergedField}
    (h : setting.Gathering type path scope selections fields gathered) :
    ∃ nodes : List FieldNode,
      setting.mergeAll path fields (nodes.map (⟨type, ·⟩)) = .ok gathered.fields ∧
      ∀ node, node ∈ nodes ↔
        ∃ condition, setting.Reaches type scope selections ⟨condition, node⟩ := by
  obtain ⟨nodes, all, hMerge, hAll, hAlike⟩ := h.listed
  exact ⟨nodes, hMerge, fun node => (hAlike.mem_iff node).trans (hAll.mem_iff node)⟩

theorem Gathering.start (fields : List MergedField) :
    setting.Gathering type path scope [] fields ⟨fields, []⟩ :=
  ⟨.nil, [], [], rfl, .nil, .refl _⟩

theorem conditionType_eq_ok {name : String} {fragment : Option String} {location : Location}
    {condition : SchemaType}
    (h : setting.conditionType name fragment location path = .ok condition) :
    setting.schema.type? name = some condition := by
  unfold conditionType at h
  split at h
  · rename_i hType
    cases h
    exact hType
  · cases h

theorem hasTaken_iff (origin : Origin) :
    gathered.hasTaken origin = true ↔ ∃ tree ∈ gathered.fragments, tree.origin = origin := by
  simp [Gathered.hasTaken]

/-- The outcome for a branch: nothing changes, or the branch is taken with what was gathered from
its own selections. -/
def Takes (setting : Setting) (type : SchemaType) (gathered : Gathered) (branch : Branch)
    (into : Except ModelError Gathered) (next : Gathered) : Prop :=
  ((setting.schema.applies branch.condition type = false ∨
      ∃ tree ∈ gathered.fragments, tree.origin = branch.origin) ∧ next = gathered) ∨
    (setting.schema.applies branch.condition type = true ∧
      (∀ tree ∈ gathered.fragments, tree.origin ≠ branch.origin) ∧
      ∃ inner, into = .ok inner ∧ next = gathered.take branch.kind branch.origin branch.name
        branch.condition branch.selections inner)

/-- A fragment is passed over or taken, as its condition and the fragments taken before say. -/
theorem takes_of_ite {branch : Branch} {into : Except ModelError Gathered}
    (h : (if !setting.schema.applies branch.condition type || gathered.hasTaken branch.origin
        then (pure gathered : Except ModelError Gathered)
        else into >>= fun inner => pure (gathered.take branch.kind branch.origin branch.name
          branch.condition branch.selections inner)) = .ok next) :
    setting.Takes type gathered branch into next := by
  split at h
  · rename_i hSkip
    rw [Outcome.pure_eq_ok_iff] at h
    refine .inl ⟨?_, h⟩
    rwa [Bool.or_eq_true, Bool.not_eq_true', hasTaken_iff] at hSkip
  · rename_i hTake
    rw [Outcome.bind_eq_ok_iff] at h
    obtain ⟨inner, hInner, hNext⟩ := h
    rw [Outcome.pure_eq_ok_iff] at hNext
    rw [Bool.or_eq_true, Bool.not_eq_true', hasTaken_iff, not_or, Bool.not_eq_false] at hTake
    refine .inr ⟨hTake.1, ?_, inner, hInner, hNext⟩
    exact fun tree hTree hSame => hTake.2 ⟨tree, hTree, hSame⟩

theorem gather_field {node : FieldNode}
    (h : gather setting type path expand scope gathered node.selection = .ok next) :
    ∃ fields, setting.mergeField type path gathered.fields node = .ok fields ∧
      next = { gathered with fields := fields } := by
  unfold FieldNode.selection at h
  rw [gather, Outcome.bind_eq_ok_iff] at h
  obtain ⟨fields, hFields, hNext⟩ := h
  rw [Outcome.pure_eq_ok_iff] at hNext
  exact ⟨fields, hFields, hNext⟩

theorem gather_spread {position : Position} {name : String}
    (h : gather setting type path expand scope gathered (.spread position name) = .ok next) :
    ∃ fragment branch, setting.document.fragment? name = some fragment ∧
      setting.Opens scope (.spread position name) branch ∧
      branch.selections = fragment.selections ∧
      setting.Takes type gathered branch
        (expand branch.condition fragment.selections gathered.fields) next := by
  rw [gather] at h
  split at h
  · exact absurd h (Outcome.throw_ne_ok _ _)
  · rename_i fragment hFragment
    rw [Outcome.bind_eq_ok_iff] at h
    obtain ⟨condition, hCondition, h⟩ := h
    exact ⟨fragment, _, hFragment, .spread hFragment (conditionType_eq_ok hCondition), rfl,
      takes_of_ite h⟩

theorem gather_inline {position : Position} {written : Option String} {inner : List Selection}
    (h : gather setting type path expand scope gathered (.inline position written inner) =
      .ok next) :
    ∃ branch, setting.Opens scope (.inline position written inner) branch ∧
      branch.selections = inner ∧
      setting.Takes type gathered branch
        (gatherAll setting type path expand branch.condition ⟨gathered.fields, []⟩ inner)
        next := by
  cases written with
  | none =>
      rw [gather, pure_bind] at h
      exact ⟨_, .inline, rfl, takes_of_ite h⟩
  | some name =>
      rw [gather, Outcome.bind_eq_ok_iff] at h
      obtain ⟨condition, hCondition, h⟩ := h
      exact ⟨_, .inlineOn (conditionType_eq_ok hCondition), rfl, takes_of_ite h⟩

variable {selections : List Selection} {fields : List MergedField}

/-- Gathering goes on with a field node. -/
theorem Gathering.field (h : setting.Gathering type path scope selections fields gathered)
    {node : FieldNode} {merged : List MergedField}
    (hMerge : setting.mergeField type path gathered.fields node = .ok merged) :
    setting.Gathering type path scope (selections ++ [node.selection]) fields
      { gathered with fields := merged } := by
  obtain ⟨nodes, all, hNodes, hAll, hAlike⟩ := h.listed
  refine ⟨h.grown.skip ?_, nodes ++ [node], all ++ [node], ?_, ?_, ?_⟩
  · intro branch hOpens
    cases hOpens
  · rw [List.map_append]
    refine mergeAll_trans hNodes ?_
    rw [List.map_singleton, mergeAll_cons, hMerge]
    rfl
  · exact hAll.append (.field .nil)
  · exact hAlike.append (.refl _)

/-- Gathering passes by a fragment selection that does not apply or whose origin was taken before:
the former reaches nothing, and the latter nothing new. -/
theorem Gathering.skip (hSetting : setting.Admissible)
    (h : setting.Gathering type path scope selections fields gathered)
    (hScope : setting.Knows scope) (hNodes : selections ⊆ setting.document.nodes)
    {selection : Selection} (hSelection : selection ∈ setting.document.nodes) {branch : Branch}
    (hOpens : setting.Opens scope selection branch)
    (hTaken : setting.schema.applies branch.condition type = true →
      ∃ tree ∈ gathered.fragments, tree.origin = branch.origin) :
    setting.Gathering type path scope (selections ++ [selection]) fields gathered := by
  obtain ⟨nodes, all, hMerge, hAll, hAlike⟩ := h.listed
  have hGrown : setting.Grown type scope (selections ++ [selection]) gathered.fragments := by
    apply h.grown.skip
    intro other hOther hApplies
    rw [hOpens.unique hOther] at hApplies ⊢
    exact hTaken hApplies
  cases hApplies : setting.schema.applies branch.condition type with
  | false =>
      refine ⟨hGrown, nodes, all ++ [], hMerge, hAll.append (.skip hOpens hApplies .nil), ?_⟩
      rwa [List.append_nil]
  | true =>
      obtain ⟨tree, hTree, hOrigin⟩ := hTaken hApplies
      obtain ⟨opener, hOpener, hOpened, _⟩ := h.grown.opened hTree
      have hBranch := hOpened.branch_eq hSetting hOpens hScope hScope (hNodes hOpener)
        hSelection hOrigin
      rw [hBranch] at hOpened
      obtain ⟨inner, hInner, hSubset⟩ := hAll.exists_inner hOpener hOpened hApplies
      refine ⟨hGrown, nodes, all ++ (inner ++ []), hMerge,
        hAll.append (.take hOpens hApplies hInner .nil), ?_⟩
      rw [List.append_nil]
      exact hAlike.trans (Repeats.Alike.append_of_subset hSubset).symm

/-- Gathering goes on with all that is gathered from the branch of a fragment selection. -/
theorem Gathering.take (h : setting.Gathering type path scope selections fields gathered)
    {selection : Selection} {branch : Branch} (hOpens : setting.Opens scope selection branch)
    (hApplies : setting.schema.applies branch.condition type = true)
    (hNew : ∀ tree ∈ gathered.fragments, tree.origin ≠ branch.origin) {inner : Gathered}
    (hInner : setting.Gathering type path branch.condition branch.selections gathered.fields
      inner) :
    setting.Gathering type path scope (selections ++ [selection]) fields
      (gathered.take branch.kind branch.origin branch.name branch.condition branch.selections
        inner) := by
  obtain ⟨nodes, all, hMerge, hAll, hAlike⟩ := h.listed
  obtain ⟨more, allMore, hMore, hAllMore, hAlikeMore⟩ := hInner.listed
  refine ⟨h.grown.take hOpens hApplies hNew hInner.grown, nodes ++ more, all ++ (allMore ++ []),
    ?_, hAll.append (.take hOpens hApplies hAllMore .nil), ?_⟩
  · rw [List.map_append]
    exact mergeAll_trans hMerge hMore
  · rw [List.append_nil]
    exact hAlike.append hAlikeMore

/-- Gathering goes on with a fragment selection, when all that is gathered from its branch is
what it should be. -/
theorem Gathering.takes (hSetting : setting.Admissible)
    (h : setting.Gathering type path scope selections fields gathered)
    (hScope : setting.Knows scope) (hNodes : selections ⊆ setting.document.nodes)
    {selection : Selection} (hSelection : selection ∈ setting.document.nodes) {branch : Branch}
    (hOpens : setting.Opens scope selection branch) {into : Except ModelError Gathered}
    (hInto : ∀ inner, into = .ok inner →
      setting.Gathering type path branch.condition branch.selections gathered.fields inner)
    (hNext : setting.Takes type gathered branch into next) :
    setting.Gathering type path scope (selections ++ [selection]) fields next := by
  rcases hNext with ⟨hSkip, rfl⟩ | ⟨hApplies, hNew, inner, hInner, rfl⟩
  · refine h.skip hSetting hScope hNodes hSelection hOpens fun hApplies => ?_
    rcases hSkip with hDoesNot | hTaken
    · rw [hApplies] at hDoesNot
      cases hDoesNot
    · exact hTaken
  · exact h.take hOpens hApplies hNew (hInto inner hInner)

/-- Fragments up to some rank are expanded as they should be. -/
def Expands (setting : Setting) (type : SchemaType) (path : ModelPath) (rank : String → Nat)
    (depth : Nat) (expand : Expand) : Prop :=
  ∀ {name fragment condition fields inner}, setting.document.fragment? name = some fragment →
    setting.Knows condition → rank name < depth →
    expand condition fragment.selections fields = .ok inner →
    setting.Gathering type path condition fragment.selections fields inner

/-- All fragments that are spread have a rank below the given one. -/
def RankedBelow (setting : Setting) (rank : String → Nat) (depth : Nat) (names : List String) :
    Prop :=
  ∀ name ∈ names, name ∈ setting.document.fragments.keys → rank name < depth

mutual

theorem Gathering.gather (hSetting : setting.Admissible) {rank : String → Nat} {depth : Nat}
    (hExpand : setting.Expands type path rank depth expand) {scope : SchemaType}
    (hScope : setting.Knows scope) {done : List Selection}
    (hDone : done ⊆ setting.document.nodes) {fields : List MergedField}
    {gathered next : Gathered}
    (h : setting.Gathering type path scope done fields gathered) :
    ∀ (selection : Selection), selection ∈ setting.document.nodes →
      setting.RankedBelow rank depth selection.spreads →
      Setting.gather setting type path expand scope gathered selection = .ok next →
      setting.Gathering type path scope (done ++ [selection]) fields next
  | .field position label name selections, _, _, hNext => by
    obtain ⟨merged, hMerge, rfl⟩ :=
      @gather_field _ _ _ _ _ _ _ ⟨position, label, name, selections⟩ hNext
    exact h.field hMerge
  | .spread position name, hNode, hRank, hNext => by
    obtain ⟨fragment, branch, hFragment, hOpens, hSelections, hTakes⟩ := gather_spread hNext
    refine h.takes hSetting hScope hDone hNode hOpens (fun inner hInner => ?_) hTakes
    have hBelow := hRank name (List.mem_singleton.mpr rfl) (Cycle.mem_keys_of_get? hFragment)
    rw [hSelections]
    exact hExpand hFragment (hOpens.knows hSetting hScope) hBelow hInner
  | .inline position written selections, hNode, hRank, hNext => by
    obtain ⟨branch, hOpens, hSelections, hTakes⟩ := gather_inline hNext
    refine h.takes hSetting hScope hDone hNode hOpens (fun inner hInner => ?_) hTakes
    have hInside : selections ⊆ setting.document.nodes :=
      hSelections ▸ hOpens.subset_nodes hNode
    rw [hSelections]
    exact Gathering.gatherAll hSetting hExpand (hOpens.knows hSetting hScope)
      (List.nil_subset _) (.start _) selections hInside hRank hInner

theorem Gathering.gatherAll (hSetting : setting.Admissible) {rank : String → Nat} {depth : Nat}
    (hExpand : setting.Expands type path rank depth expand) {scope : SchemaType}
    (hScope : setting.Knows scope) {done : List Selection}
    (hDone : done ⊆ setting.document.nodes) {fields : List MergedField}
    {gathered next : Gathered}
    (h : setting.Gathering type path scope done fields gathered) :
    ∀ (selections : List Selection), selections ⊆ setting.document.nodes →
      setting.RankedBelow rank depth (Selection.spreadsAll selections) →
      Setting.gatherAll setting type path expand scope gathered selections = .ok next →
      setting.Gathering type path scope (done ++ selections) fields next
  | [], _, _, hNext => by
    rw [Setting.gatherAll] at hNext
    cases hNext
    rwa [List.append_nil]
  | selection :: rest, hNodes, hRank, hNext => by
    rw [Setting.gatherAll, Outcome.bind_eq_ok_iff] at hNext
    obtain ⟨middle, hFirst, hRest⟩ := hNext
    obtain ⟨hSelection, hOthers⟩ := List.cons_subset.mp hNodes
    have hMiddle := Gathering.gather hSetting hExpand hScope hDone h selection hSelection
      (fun name hName => hRank name (List.mem_append_left _ hName)) hFirst
    have hAll := Gathering.gatherAll hSetting hExpand hScope
      (List.append_subset.mpr ⟨hDone, List.cons_subset.mpr ⟨hSelection, List.nil_subset _⟩⟩)
      hMiddle rest hOthers (fun name hName => hRank name (List.mem_append_right _ hName)) hRest
    rwa [List.append_assoc] at hAll

end

/-- Gathering within a depth is complete when no fragment ranks above the depth. -/
theorem Gathering.gatherWithin (hSetting : setting.Admissible) {rank : String → Nat}
    (hRanking : Cycle.Ranking setting.document.fragments rank) (depth : Nat)
    (hScope : setting.Knows scope) (hNodes : selections ⊆ setting.document.nodes)
    (hRank : setting.RankedBelow rank depth (Selection.spreadsAll selections))
    (h : setting.gatherWithin type path depth scope selections fields = .ok gathered) :
    setting.Gathering type path scope selections fields gathered := by
  induction depth generalizing scope selections fields gathered with
  | zero =>
      rw [Setting.gatherWithin] at h
      have hExpand : setting.Expands type path rank 0 fun _ _ fields => .ok ⟨fields, []⟩ :=
        fun _ _ hLess => absurd hLess (Nat.not_lt_zero _)
      exact Gathering.gatherAll hSetting hExpand hScope (List.nil_subset _) (.start fields)
        selections hNodes hRank h
  | succ depth ih =>
      rw [Setting.gatherWithin] at h
      have hExpand : setting.Expands type path rank (depth + 1)
          (setting.gatherWithin type path depth) := by
        intro name fragment condition fields inner hFragment hCondition hLess hInner
        refine ih hCondition ?_ ?_ hInner
        · exact fun _ hMem => Document.mem_nodes_of_body
            (Document.body_of_fragment (Document.mem_values_of_fragment? hFragment)) hMem
        · intro next hNext hDefined
          have hFalls := hRanking.falls hFragment next hNext hDefined
          omega
      exact Gathering.gatherAll hSetting hExpand hScope (List.nil_subset _) (.start fields)
        selections hNodes hRank h

/-- What is collected: the trees that are grown from the selections, and the fields merged from
the nodes that are reached. -/
theorem gathering_of_collectIn (hSetting : setting.Admissible) (hScope : setting.Knows scope)
    (hNodes : selections ⊆ setting.document.nodes) {collected : Collected}
    (h : setting.collectIn scope type selections path = .ok collected) :
    collected.type = type ∧ collected.selections = selections ∧
      setting.Gathering type path scope selections []
        ⟨collected.fields, collected.fragments⟩ := by
  obtain ⟨rank, hRanking⟩ := hSetting.document.exists_ranking
  rw [collectIn, Outcome.bind_eq_ok_iff] at h
  obtain ⟨gathered, hGathered, h⟩ := h
  rw [Outcome.pure_eq_ok_iff] at h
  subst h
  refine ⟨rfl, rfl, .gatherWithin hSetting hRanking _ hScope hNodes ?_ hGathered⟩
  exact fun name _ hDefined => hRanking.bounded name hDefined

/-- The response keys collected are those of the field nodes reached. -/
theorem mem_collected_iff (hSetting : setting.Admissible) (hScope : setting.Knows scope)
    (hNodes : selections ⊆ setting.document.nodes) {collected : Collected}
    (h : setting.collectIn scope type selections path = .ok collected) (key : String) :
    key ∈ collected.fields.map MergedField.responseKey ↔
      ∃ occurrence, setting.Reaches type scope selections occurrence ∧ occurrence.key = key := by
  obtain ⟨_, _, hGathering⟩ := gathering_of_collectIn hSetting hScope hNodes h
  obtain ⟨nodes, hMerge, hReached⟩ := hGathering.merged
  rw [(merged_of_mergeAll hMerge).mem_keys_iff]
  constructor
  · rintro ⟨occurrence, hMem, rfl⟩
    obtain ⟨node, hNode, rfl⟩ := List.mem_map.mp hMem
    obtain ⟨condition, hReaches⟩ := (hReached node).mp hNode
    exact ⟨⟨condition, node⟩, hReaches, rfl⟩
  · rintro ⟨⟨condition, node⟩, hReaches, rfl⟩
    exact ⟨⟨type, node⟩, List.mem_map_of_mem ((hReached node).mpr ⟨condition, hReaches⟩), rfl⟩

end Setting

end ResponseModels
