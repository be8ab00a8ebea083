import ResponseModels.Proofs.Document.Reached
import ResponseModels.Proofs.Document.Standing
import ResponseModels.Proofs.Selection.Flattening
import ResponseModels.Proofs.Selection.Unfolding

/-! A successful walk over selections at a type: which field nodes it meets, and which trees it
takes. Collecting merges the nodes of a walk and keeps its trees, whatever was merged before.
Flattening the trees again walks over the same nodes in the same order, and passes through each
tree of a selection set in one go. -/
namespace ResponseModels

open GraphQL

namespace Setting

variable {setting : Setting} {type scope : SchemaType} {path : ModelPath}
  {taken trees : List FragmentTree} {selections : List Selection} {nodes : List FieldNode}
  {tree : FragmentTree}

/-- A walk over the selections of a set on `scope` at `type`, with the field nodes that it meets.
It starts from the trees taken before and ends with those taken in all. -/
inductive Walks (setting : Setting) (type : SchemaType) : SchemaType → List FragmentTree →
    List Selection → List FieldNode → List FragmentTree → Prop
  | done {scope : SchemaType} {taken : List FragmentTree} :
    Walks setting type scope taken [] [] taken
  | field {scope : SchemaType} {taken trees : List FragmentTree} {node : FieldNode} {field : Field}
      {rest : List Selection} {nodes : List FieldNode} :
    type.selectable? node.name = some field → Walks setting type scope taken rest nodes trees →
    Walks setting type scope taken (node.selection :: rest) (node :: nodes) trees
  | pass {scope : SchemaType} {taken trees : List FragmentTree} {selection : Selection}
      {branch : Branch} {rest : List Selection} {nodes : List FieldNode} :
    setting.Opens scope selection branch →
    (setting.schema.applies branch.condition type = true →
      ∃ tree ∈ taken, tree.origin = branch.origin) →
    Walks setting type scope taken rest nodes trees →
    Walks setting type scope taken (selection :: rest) nodes trees
  | take {scope : SchemaType} {taken trees : List FragmentTree} {selection : Selection}
      {tree : FragmentTree} {rest : List Selection} {inner nodes : List FieldNode} :
    setting.Opens scope selection tree.branch →
    setting.schema.applies tree.condition type = true →
    (∀ other ∈ taken, other.origin ≠ tree.origin) →
    Walks setting type tree.condition [] tree.selections inner tree.children →
    Walks setting type scope (taken ++ [tree]) rest nodes trees →
    Walks setting type scope taken (selection :: rest) (inner ++ nodes) trees

/-- Merge nodes that are all met on one type. -/
def mergeOn (setting : Setting) (type : SchemaType) (path : ModelPath) (fields : List MergedField)
    (nodes : List FieldNode) : Except ModelError (List MergedField) :=
  setting.mergeAll path fields (nodes.map (Occurrence.mk type))

theorem enters_iff {gathered : Gathered} {branch : Branch} :
    setting.Enters type gathered branch ↔
      setting.schema.applies branch.condition type = true ∧
        ∀ tree ∈ gathered.fragments, tree.origin ≠ branch.origin := by
  simp [Enters, Gathered.hasTaken]

/-- Gathering that succeeds is a walk, and merges its nodes. -/
theorem Gathers.walks {gathered next : Gathered} {outcome : Except ModelError Gathered}
    (h : setting.Gathers type path scope gathered selections outcome)
    (hOutcome : outcome = .ok next) :
    ∃ nodes, setting.Walks type scope gathered.fragments selections nodes next.fragments ∧
      setting.mergeOn type path gathered.fields nodes = .ok next.fields := by
  induction h generalizing next with
  | done =>
      cases hOutcome
      exact ⟨[], .done, rfl⟩
  | @field scope gathered node fields rest outcome hMerge _ ih =>
      obtain ⟨nodes, hWalk, hNodes⟩ := ih hOutcome
      obtain ⟨field, hField, _⟩ := mergeField_eq_ok hMerge
      refine ⟨node :: nodes, .field hField hWalk, ?_⟩
      rw [mergeOn, List.map_cons, mergeAll_cons, hMerge]
      exact hNodes
  | unknown => cases hOutcome
  | refused => cases hOutcome
  | @pass scope gathered selection branch rest outcome hOpens hNot _ ih =>
      obtain ⟨nodes, hWalk, hNodes⟩ := ih hOutcome
      refine ⟨nodes, .pass hOpens ?_ hWalk, hNodes⟩
      intro hApplies
      rw [enters_iff] at hNot
      simpa [hApplies] using hNot
  | inside => cases hOutcome
  | @take scope gathered inner selection branch rest outcome hOpens hEnters _ _ ihInner ih =>
      obtain ⟨front, hInner, hFront⟩ := ihInner rfl
      obtain ⟨back, hWalk, hBack⟩ := ih hOutcome
      obtain ⟨hApplies, hNew⟩ := enters_iff.mp hEnters
      let tree : FragmentTree := .node branch.kind branch.origin branch.name branch.condition
        branch.selections inner.fragments
      have hOpens : setting.Opens scope selection tree.branch := hOpens
      refine ⟨front ++ back, .take hOpens hApplies hNew hInner hWalk, ?_⟩
      rw [mergeOn, List.map_append]
      exact mergeAll_trans hFront hBack

theorem Opens.not_refuses {selection : Selection} {branch : Branch} {cause : ModelError}
    (h : setting.Opens scope selection branch) : ¬ setting.Refuses path selection cause := by
  intro hRefuses
  cases h with
  | spread hFragment hCondition =>
      cases hRefuses with
      | undefined hNone => exact absurd (hFragment.symm.trans hNone) nofun
      | spread hFragment' hError =>
          cases Option.some.inj (hFragment.symm.trans hFragment')
          rw [conditionType, hCondition] at hError
          cases hError
  | inlineOn hCondition =>
      cases hRefuses with
      | inline hError =>
          rw [conditionType, hCondition] at hError
          cases hError
  | inline => cases hRefuses

theorem Opens.ne_field {selection : Selection} {branch : Branch}
    (h : setting.Opens scope selection branch) (node : FieldNode) :
    selection ≠ node.selection := by
  rintro rfl
  cases h

/-- How gathering goes on after a field node that is merged. -/
theorem Gathers.field_inv {gathered : Gathered} {node : FieldNode} {rest : List Selection}
    {fields : List MergedField} {outcome : Except ModelError Gathered}
    (h : setting.Gathers type path scope gathered (node.selection :: rest) outcome)
    (hMerge : setting.mergeField type path gathered.fields node = .ok fields) :
    setting.Gathers type path scope { gathered with fields := fields } rest outcome := by
  generalize hSelections : node.selection :: rest = selections at h
  cases h with
  | done => cases hSelections
  | field hMerge' hRest =>
      injection hSelections with hNode hRest'
      cases FieldNode.selection_inj hNode
      cases hRest'
      cases hMerge.symm.trans hMerge'
      exact hRest
  | unknown hMerge' =>
      injection hSelections with hNode
      cases FieldNode.selection_inj hNode
      cases hMerge.symm.trans hMerge'
  | refused hRefuses =>
      injection hSelections with hNode
      rw [← hNode] at hRefuses
      cases hRefuses
  | pass hOpens =>
      injection hSelections with hNode
      exact absurd hNode.symm (hOpens.ne_field node)
  | inside hOpens =>
      injection hSelections with hNode
      exact absurd hNode.symm (hOpens.ne_field node)
  | take hOpens =>
      injection hSelections with hNode
      exact absurd hNode.symm (hOpens.ne_field node)

/-- How gathering goes on after a selection that opens a branch. -/
theorem Gathers.branch_inv {gathered : Gathered} {selection : Selection} {branch : Branch}
    {rest : List Selection} {outcome : Except ModelError Gathered}
    (h : setting.Gathers type path scope gathered (selection :: rest) outcome)
    (hOpens : setting.Opens scope selection branch) :
    (¬ setting.Enters type gathered branch ∧
        setting.Gathers type path scope gathered rest outcome) ∨
      setting.Enters type gathered branch ∧ ∃ into,
        setting.Gathers type path branch.condition ⟨gathered.fields, []⟩ branch.selections into ∧
          ∀ inner, into = .ok inner →
            setting.Gathers type path scope (gathered.take branch.kind branch.origin branch.name
              branch.condition branch.selections inner) rest outcome := by
  cases h with
  | field => exact absurd rfl (hOpens.ne_field _)
  | unknown => exact absurd rfl (hOpens.ne_field _)
  | refused hRefuses => exact absurd hRefuses hOpens.not_refuses
  | pass hOpens' hNot hRest =>
      cases hOpens.unique hOpens'
      exact .inl ⟨hNot, hRest⟩
  | inside hOpens' hEnters hInto =>
      cases hOpens.unique hOpens'
      exact .inr ⟨hEnters, _, hInto, nofun⟩
  | take hOpens' hEnters hInto hRest =>
      cases hOpens.unique hOpens'
      refine .inr ⟨hEnters, _, hInto, fun inner hInner => ?_⟩
      cases hInner
      exact hRest

/-- A walk is what gathering does, from any fields merged before. -/
theorem Walks.outcome (h : setting.Walks type scope taken selections nodes trees)
    {gathered : Gathered} (hTaken : gathered.fragments = taken)
    {outcome : Except ModelError Gathered}
    (hGathers : setting.Gathers type path scope gathered selections outcome) :
    ∃ fields, setting.mergeOn type path gathered.fields nodes = .ok fields ∧
      outcome = .ok ⟨fields, trees⟩ := by
  induction h generalizing gathered outcome with
  | done =>
      cases hGathers
      exact ⟨gathered.fields, rfl, by rw [← hTaken]⟩
  | @field scope taken trees node field rest nodes hField _ ih =>
      have hMerges : ∃ next, setting.mergeField type path gathered.fields node = .ok next := by
        unfold mergeField
        rw [hField]
        dsimp only
        split <;> exact ⟨_, rfl⟩
      obtain ⟨next, hNext⟩ := hMerges
      have hStill : ({ gathered with fields := next } : Gathered).fragments = taken := hTaken
      obtain ⟨fields, hFields, hOutcome⟩ := ih hStill (hGathers.field_inv hNext)
      refine ⟨fields, ?_, hOutcome⟩
      rw [mergeOn, List.map_cons, mergeAll_cons, hNext]
      exact hFields
  | @pass scope taken trees selection branch rest nodes hOpens hPass _ ih =>
      rcases hGathers.branch_inv hOpens with ⟨_, hRest⟩ | ⟨hEnters, _⟩
      · exact ih hTaken hRest
      · obtain ⟨hApplies, hNew⟩ := enters_iff.mp hEnters
        obtain ⟨tree, hTree, hOrigin⟩ := hPass hApplies
        exact absurd hOrigin (hNew tree (hTaken ▸ hTree))
  | @take scope taken trees selection tree rest inner nodes hOpens hApplies hNew _ _ ihInner ih =>
      rcases hGathers.branch_inv hOpens with ⟨hNot, _⟩ | ⟨_, into, hInto, hRest⟩
      · exact absurd (enters_iff.mpr ⟨hApplies, hTaken ▸ hNew⟩) hNot
      · obtain ⟨middle, hMiddle, rfl⟩ := ihInner rfl hInto
        have hTree : gathered.take tree.branch.kind tree.branch.origin tree.branch.name
            tree.branch.condition tree.branch.selections ⟨middle, tree.children⟩ =
            ⟨middle, taken ++ [tree]⟩ := by
          rw [Gathered.take, hTaken]
          exact congrArg (fun tree => Gathered.mk middle (taken ++ [tree])) tree.eta
        have hNext := hRest _ rfl
        rw [hTree] at hNext
        obtain ⟨fields, hFields, hOutcome⟩ := ih rfl hNext
        refine ⟨fields, ?_, hOutcome⟩
        rw [mergeOn, List.map_append]
        exact mergeAll_trans hMiddle hFields

/-- Collecting is a walk that starts with nothing. -/
theorem collectIn_eq_ok_iff (hDocument : setting.document.Accepted) {collected : Collected} :
    setting.collectIn scope type selections path = .ok collected ↔
      ∃ nodes, setting.Walks type scope [] selections nodes collected.fragments ∧
        setting.mergeOn type path [] nodes = .ok collected.fields ∧
          collected.type = type ∧ collected.selections = selections := by
  obtain ⟨outcome, hGathers, hCollect⟩ :=
    exists_gathers_of_collectIn hDocument scope type selections path
  rw [hCollect]
  constructor
  · intro hOk
    cases outcome with
    | error => cases hOk
    | ok gathered =>
        cases hOk
        obtain ⟨nodes, hWalk, hNodes⟩ := hGathers.walks rfl
        exact ⟨nodes, hWalk, hNodes, rfl, rfl⟩
  · rintro ⟨nodes, hWalk, hNodes, rfl, rfl⟩
    obtain ⟨fields, hFields, rfl⟩ := hWalk.outcome rfl hGathers
    cases hNodes.symm.trans hFields
    rfl

/-- Inline fragments at one position are the same, in the document and among the selections. -/
def InlinesApart (setting : Setting) (selections : List Selection) : Prop :=
  ∀ position written inner written' inner',
    Selection.inline position written inner ∈
        setting.document.nodes ++ Selection.nodesOf selections →
      Selection.inline position written' inner' ∈
          setting.document.nodes ++ Selection.nodesOf selections →
        Selection.inline position written inner = .inline position written' inner'

theorem InlinesApart.mono {others : List Selection} (h : setting.InlinesApart selections)
    (hSubset : Selection.nodesOf others ⊆
      setting.document.nodes ++ Selection.nodesOf selections) : setting.InlinesApart others := by
  intro position written inner written' inner' hNode hNode'
  have hAll : setting.document.nodes ++ Selection.nodesOf others ⊆
      setting.document.nodes ++ Selection.nodesOf selections :=
    List.append_subset.mpr ⟨List.subset_append_left _ _, hSubset⟩
  exact h _ _ _ _ _ (hAll hNode) (hAll hNode')

theorem InlinesApart.branch {selection : Selection} {branch : Branch}
    (h : setting.InlinesApart selections) (hSelection : selection ∈ selections)
    (hOpens : setting.Opens scope selection branch) : setting.InlinesApart branch.selections := by
  have hInner := Selection.nodesOf_inner_sublist _ (Selection.subset_nodesOf _ hSelection)
  apply h.mono
  cases hOpens with
  | spread hFragment =>
      have hBody := Document.body_of_fragment (Document.mem_values_of_fragment? hFragment)
      exact fun _ hNode =>
        List.mem_append_left _ ((Document.nodesOf_sublist_nodes hBody).subset hNode)
  | inlineOn => exact fun _ hNode => List.mem_append_right _ (hInner.subset hNode)
  | inline => exact fun _ hNode => List.mem_append_right _ (hInner.subset hNode)

/-- Selections of a document whose nodes stand apart. -/
theorem InlinesApart.of_positions (hPositions : setting.document.DistinctPositions)
    (hNodes : selections ⊆ setting.document.nodes) : setting.InlinesApart selections := by
  intro position written inner written' inner' hNode hNode'
  have hInside : setting.document.nodes ++ Selection.nodesOf selections ⊆
      setting.document.nodes := by
    refine List.append_subset.mpr ⟨List.Subset.refl _, fun node hNode => ?_⟩
    obtain ⟨selection, hSelection, hInner⟩ := Selection.mem_nodesOf.mp hNode
    rw [Selection.nodes_eq] at hInner
    rcases List.mem_cons.mp hInner with rfl | hInner
    · exact hNodes hSelection
    · exact (Document.nodesOf_sublist_nodes
        (Document.body_of_node (hNodes hSelection))).subset hInner
  exact hPositions.node_eq (hInside hNode) (hInside hNode') rfl

/-- The trees taken before stay in front. -/
theorem Walks.isPrefix (h : setting.Walks type scope taken selections nodes trees) :
    taken <+: trees := by
  induction h with
  | done => exact List.prefix_rfl
  | field _ _ ih => exact ih
  | pass _ _ _ ih => exact ih
  | take _ _ _ _ _ _ ih => exact (List.prefix_append _ _).trans ih

/-- A tree that the walk takes is one that a selection opens, that applies, and that takes in what
a walk over its own selections takes. -/
theorem Walks.opened (h : setting.Walks type scope taken selections nodes trees)
    (hTree : tree ∈ trees) : tree ∈ taken ∨
      ∃ selection ∈ selections, setting.Opens scope selection tree.branch ∧
        setting.schema.applies tree.condition type = true ∧
          ∃ inner, setting.Walks type tree.condition [] tree.selections inner tree.children := by
  induction h with
  | done => exact .inl hTree
  | field _ _ ih =>
      refine (ih hTree).imp_right ?_
      rintro ⟨selection, hSelection, hOpened⟩
      exact ⟨selection, List.mem_cons_of_mem _ hSelection, hOpened⟩
  | pass _ _ _ ih =>
      refine (ih hTree).imp_right ?_
      rintro ⟨selection, hSelection, hOpened⟩
      exact ⟨selection, List.mem_cons_of_mem _ hSelection, hOpened⟩
  | @take scope taken trees first next rest inner nodes hOpens hApplies _ hInner _ _ ih =>
      rcases ih hTree with hMem | ⟨selection, hSelection, hOpened⟩
      · rcases List.mem_append.mp hMem with hMem | hMem
        · exact .inl hMem
        · rw [List.mem_singleton.mp hMem]
          exact .inr ⟨first, List.mem_cons_self, hOpens, hApplies, inner, hInner⟩
      · exact .inr ⟨selection, List.mem_cons_of_mem _ hSelection, hOpened⟩

/-- Where a walk has come to: the trees are those that the selections open, and flattening has
visited the ones taken so far. -/
structure Midway (setting : Setting) (type scope : SchemaType) (passed selections : List Selection)
    (taken trees : List FragmentTree) (visited : List Nat) : Prop where
  apart : setting.InlinesApart (passed ++ selections)
  opened : ∀ tree ∈ trees, ∃ selection ∈ passed ++ selections,
    setting.Opens scope selection tree.branch ∧
      setting.schema.applies tree.condition type = true
  visited : ∀ index, index ∈ visited ↔ index < taken.length

namespace Midway

variable {passed rest : List Selection} {selection : Selection} {branch : Branch}
  {visited : List Nat} {condition : SchemaType}

theorem start (h : setting.Walks type scope [] selections nodes trees)
    (hApart : setting.InlinesApart selections) :
    setting.Midway type scope [] selections [] trees [] := by
  refine ⟨hApart, fun tree hTree => ?_, by simp⟩
  obtain ⟨selection, hSelection, hOpens, hApplies, _⟩ :=
    (h.opened hTree).resolve_left List.not_mem_nil
  exact ⟨selection, hSelection, hOpens, hApplies⟩

theorem next (h : setting.Midway type scope passed (selection :: rest) taken trees visited) :
    setting.Midway type scope (passed ++ [selection]) rest taken trees visited := by
  obtain ⟨hApart, hOpened, hVisited⟩ := h
  rw [List.append_cons] at hApart hOpened
  exact ⟨hApart, hOpened, hVisited⟩

theorem take (h : setting.Midway type scope passed (selection :: rest) taken trees visited) :
    setting.Midway type scope (passed ++ [selection]) rest (taken ++ [tree]) trees
      (taken.length :: visited) := by
  obtain ⟨hApart, hOpened, hVisited⟩ := h.next
  refine ⟨hApart, hOpened, fun index => ?_⟩
  rw [List.mem_cons, hVisited, List.length_append, List.length_singleton]
  omega

/-- The next selection leads only to a tree of its own branch. -/
theorem branch_eq (h : setting.Midway type scope passed (selection :: rest) taken trees visited)
    (hDocument : setting.document.Accepted) (hOpens : setting.Opens scope selection branch)
    (hTree : tree ∈ trees) (hLeads : setting.leadsTo selection tree.origin = true) :
    tree.branch = branch := by
  obtain ⟨other, hOther, hOpened, _⟩ := h.opened tree hTree
  have hSelection : selection ∈ passed ++ selection :: rest :=
    List.mem_append_right _ List.mem_cons_self
  refine hOpens.branch_eq_of_leadsTo hDocument hOpened ?_ hLeads
  intro position written inner written' inner' hInline hInline'
  rw [hInline, hInline']
  exact h.apart _ _ _ _ _
    (List.mem_append_right _ (hInline ▸ Selection.subset_nodesOf _ hSelection))
    (List.mem_append_right _ (hInline' ▸ Selection.subset_nodesOf _ hOther))

/-- Flattening goes past a selection that the walk goes past. If the selection leads to a tree at
all, then to one taken before: else the tree would be of the selection's own branch, and apply. -/
theorem metAmong_pass
    (h : setting.Midway type scope passed (selection :: rest) taken trees visited)
    (hDocument : setting.document.Accepted) (hFront : taken <+: trees)
    (hOpens : setting.Opens scope selection branch)
    (hPass : setting.schema.applies branch.condition type = true →
      ∃ tree ∈ taken, tree.origin = branch.origin) :
    setting.metAmong condition (setting.metEach trees) visited (selection :: rest) =
      setting.metAmong condition (setting.metEach trees) visited rest := by
  rw [metAmong_fragment hOpens.ne_field]
  cases hIndex : trees.findIdx? (setting.leadsTo selection ·.origin) with
  | none => rfl
  | some index =>
      have hSeen : index ∈ visited := by
        obtain ⟨hBound, hLeads, hBefore⟩ := List.findIdx?_eq_some_iff_getElem.mp hIndex
        have hBranch := h.branch_eq hDocument hOpens (List.getElem_mem hBound) hLeads
        obtain ⟨_, _, _, hApplies⟩ := h.opened _ (List.getElem_mem hBound)
        obtain ⟨tree, hTree, hOrigin⟩ := hPass (hBranch ▸ hApplies)
        obtain ⟨place, hPlace, rfl⟩ := List.getElem_of_mem hTree
        rw [h.visited]
        by_contra hLate
        have hEarlier : place < index := by omega
        have hNot := hBefore place hEarlier
        rw [← hFront.getElem hPlace, hOrigin] at hNot
        exact hNot (hOpens.leadsTo hDocument)
      simp only [hSeen, if_true]

/-- Flattening enters the tree that the walk takes next. -/
theorem metAmong_take
    (h : setting.Midway type scope passed (selection :: rest) taken trees visited)
    (hDocument : setting.document.Accepted) (hFront : taken ++ [tree] <+: trees)
    (hOpens : setting.Opens scope selection tree.branch)
    (hNew : ∀ other ∈ taken, other.origin ≠ tree.origin) :
    setting.metAmong condition (setting.metEach trees) visited (selection :: rest) =
      setting.met tree ++
        setting.metAmong condition (setting.metEach trees) (taken.length :: visited) rest := by
  have hPlace : taken.length < (taken ++ [tree]).length := by simp
  have hBound : taken.length < trees.length := Nat.lt_of_lt_of_le hPlace hFront.length_le
  have hTree : trees[taken.length] = tree := by
    rw [← hFront.getElem hPlace, List.getElem_concat_length rfl]
  have hIndex : trees.findIdx? (setting.leadsTo selection ·.origin) = some taken.length := by
    rw [List.findIdx?_eq_some_iff_getElem]
    refine ⟨hBound, ?_, fun place hEarlier hLeads => ?_⟩
    · rw [hTree]
      exact hOpens.leadsTo hDocument
    · have hBranch := h.branch_eq hDocument hOpens (List.getElem_mem _) hLeads
      have hTaken := ((List.prefix_append _ _).trans hFront).getElem hEarlier
      exact hNew _ (List.getElem_mem hEarlier) (hTaken ▸ congrArg Branch.origin hBranch)
  have hUnseen : taken.length ∉ visited := by simp [h.visited]
  rw [metAmong_fragment hOpens.ne_field, hIndex]
  simp only [hUnseen, if_false, List.getElem?_eq_getElem hBound, hTree]

end Midway

/-- Flattening the trees of a walk meets the nodes of the walk, those of each tree in one go. The
induction is on the walk, and the walks into its trees are part of it. -/
theorem Walks.metAmong (h : setting.Walks type scope taken selections nodes trees)
    (hDocument : setting.document.Accepted) {passed : List Selection} {visited : List Nat}
    (hMidway : setting.Midway type scope passed selections taken trees visited)
    (condition : SchemaType) :
    (setting.metAmong condition (setting.metEach trees) visited selections).map
        Occurrence.node = nodes ∧
      ∀ tree ∈ trees, tree ∈ taken ∨ setting.met tree <:+:
        setting.metAmong condition (setting.metEach trees) visited selections := by
  induction h generalizing passed visited condition with
  | done => exact ⟨rfl, fun _ hTree => .inl hTree⟩
  | field _ _ ih =>
      obtain ⟨hNodes, hEach⟩ := ih hMidway.next condition
      rw [metAmong_field, List.map_cons, hNodes]
      refine ⟨rfl, fun tree hTree => (hEach tree hTree).imp_right fun hInfix => ?_⟩
      exact hInfix.trans (List.suffix_cons _ _).isInfix
  | pass hOpens hPass hRest ih =>
      rw [hMidway.metAmong_pass hDocument hRest.isPrefix hOpens hPass]
      exact ih hMidway.next condition
  | @take scope taken trees selection tree rest inner nodes hOpens _ hNew hInner hRest ihInner ih =>
      obtain ⟨hNodes, hEach⟩ := ih hMidway.take condition
      rw [hMidway.metAmong_take hDocument hRest.isPrefix hOpens hNew]
      have hApart := hMidway.apart.branch (List.mem_append_right _ List.mem_cons_self) hOpens
      have hMet : (setting.met tree).map Occurrence.node = inner := by
        rw [met_eq]
        exact (ihInner (.start hInner hApart) tree.condition).1
      refine ⟨by rw [List.map_append, hMet, hNodes], fun other hOther => ?_⟩
      rcases hEach other hOther with hTaken | hInfix
      · rcases List.mem_append.mp hTaken with hTaken | hLast
        · exact .inl hTaken
        · rw [List.mem_singleton.mp hLast]
          exact .inr (List.prefix_append _ _).isInfix
      · exact .inr (hInfix.trans (List.suffix_append _ _).isInfix)

variable {fields : List MergedField}

/-- Flattening a tree that has the trees of a walk over its selections meets the walk's nodes. -/
theorem Walks.met (h : setting.Walks type scope [] tree.selections nodes tree.children)
    (hDocument : setting.document.Accepted) (hApart : setting.InlinesApart tree.selections) :
    (setting.met tree).map Occurrence.node = nodes := by
  rw [met_eq]
  exact (h.metAmong hDocument (.start h hApart) tree.condition).1

/-- Each child of such a tree is met in one go. -/
theorem Walks.met_infix {child : FragmentTree}
    (h : setting.Walks type scope [] tree.selections nodes tree.children)
    (hDocument : setting.document.Accepted) (hApart : setting.InlinesApart tree.selections)
    (hChild : child ∈ tree.children) : setting.met child <:+: setting.met tree := by
  rw [met_eq tree]
  exact ((h.metAmong hDocument (.start h hApart) tree.condition).2 child hChild).resolve_left
    List.not_mem_nil

/-- Every node of a tree that a walk takes is one with the trees of a walk over its own
selections. -/
theorem Walks.within {node : FragmentTree}
    (h : setting.Walks type scope [] selections nodes trees)
    (hApart : setting.InlinesApart selections) (hTree : tree ∈ trees)
    (hNode : FragmentTree.Within node tree) : setting.InlinesApart node.selections ∧
      ∃ inner, setting.Walks type node.condition [] node.selections inner node.children := by
  induction hNode generalizing scope selections nodes trees with
  | self =>
      obtain ⟨selection, hSelection, hOpens, _, hInner⟩ :=
        (h.opened hTree).resolve_left List.not_mem_nil
      exact ⟨hApart.branch hSelection hOpens, hInner⟩
  | inner hChild _ ih =>
      obtain ⟨selection, hSelection, hOpens, _, inner, hInner⟩ :=
        (h.opened hTree).resolve_left List.not_mem_nil
      exact ih hInner (hApart.branch hSelection hOpens) hChild

end Setting

end ResponseModels
