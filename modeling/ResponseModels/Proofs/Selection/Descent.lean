import ResponseModels.Proofs.Selection.Collecting
import ResponseModels.Proofs.Selection.Flattening
import ResponseModels.Proofs.Selection.Nesting

/-! Where the field nodes of a tree come from, whatever the schema. The trees that are collected
from selections are those of fragments among them, at any depth; so all that they hold is among what
the selections lead to, applying or not. What is merged in a tree is among what its own selections
lead to, even where other trees were added to its children. -/
namespace ResponseModels

open GraphQL

theorem Document.leads_flatMap {document : Document} {nodes : List FieldNode} {node : FieldNode}
    (h : document.Leads (nodes.flatMap FieldNode.selections) node) :
    ∃ outer ∈ nodes, document.NestedIn node outer := by
  cases h with
  | field hMem =>
      obtain ⟨outer, hOuter, hInner⟩ := List.mem_flatMap.mp hMem
      exact ⟨outer, hOuter, .field hInner⟩
  | inline hMem hLeads =>
      obtain ⟨outer, hOuter, hInner⟩ := List.mem_flatMap.mp hMem
      exact ⟨outer, hOuter, .inline hInner hLeads⟩
  | spread hMem hFragment hLeads =>
      obtain ⟨outer, hOuter, hInner⟩ := List.mem_flatMap.mp hMem
      exact ⟨outer, hOuter, .spread hInner hFragment hLeads⟩

namespace Setting

variable {setting : Setting} {type scope : SchemaType} {path : ModelPath} {expand : Expand}
  {selection : Selection} {selections : List Selection} {branch : Branch} {node : FieldNode}
  {tree subtree : FragmentTree}

/-- What a branch opened by a selection leads to, the selection leads to. -/
theorem Opens.leads (h : setting.Opens scope selection branch) (hMem : selection ∈ selections)
    (hLeads : setting.document.Leads branch.selections node) :
    setting.document.Leads selections node := by
  cases h with
  | spread hFragment _ => exact .spread hMem hFragment hLeads
  | inlineOn _ => exact .inline hMem hLeads
  | inline => exact .inline hMem hLeads

/-- A selection that leads to the origin of a branch leads to what the branch leads to, also where
another selection has opened the branch. -/
theorem Opens.leads_of_leadsTo (hDocument : setting.document.Accepted)
    (hPositions : setting.document.DistinctPositions) {opener : Selection}
    (h : setting.Opens scope opener branch) (hOpener : opener ∈ setting.document.nodes)
    (hMem : selection ∈ selections) (hNode : selection ∈ setting.document.nodes)
    (hTo : setting.leadsTo selection branch.origin = true)
    (hLeads : setting.document.Leads branch.selections node) :
    setting.document.Leads selections node := by
  cases h with
  | @spread position name fragment condition hFragment _ =>
      cases selection with
      | field => cases hTo
      | inline => cases hTo
      | spread place spreadName =>
          have hName : fragment.name = spreadName := eq_of_beq hTo
          rw [hDocument.fragment?_name hFragment] at hName
          exact .spread hMem (hName ▸ hFragment) hLeads
  | inlineOn _ =>
      cases selection with
      | field => cases hTo
      | spread => cases hTo
      | inline place written inner =>
          have hPosition := Document.locate_inj (eq_of_beq hTo)
          cases hPositions.node_eq hOpener hNode hPosition
          exact .inline hMem hLeads
  | inline =>
      cases selection with
      | field => cases hTo
      | spread => cases hTo
      | inline place written inner =>
          have hPosition := Document.locate_inj (eq_of_beq hTo)
          cases hPositions.node_eq hOpener hNode hPosition
          exact .inline hMem hLeads

/-- The tree of a fragment among the selections, whose children are trees of fragments among its
own selections in turn. -/
inductive Stems (setting : Setting) : List Selection → FragmentTree → Prop
  | intro {scope : SchemaType} {selections : List Selection} {selection : Selection}
      {tree : FragmentTree} :
    selection ∈ selections → setting.Opens scope selection tree.branch →
    (∀ child ∈ tree.children, Stems setting tree.selections child) →
    Stems setting selections tree

/-- Whatever a tree in one that stems from selections leads to, the selections lead to. -/
theorem Stems.leads (h : setting.Stems selections tree) (hWithin : subtree.Within tree)
    (hLeads : setting.document.Leads subtree.selections node) :
    setting.document.Leads selections node := by
  induction hWithin generalizing selections with
  | self =>
      obtain ⟨hMem, hOpens, _⟩ := h
      exact hOpens.leads hMem hLeads
  | inner hChild _ ih =>
      obtain ⟨hMem, hOpens, hChildren⟩ := h
      exact hOpens.leads hMem (ih (hChildren _ hChild) hLeads)

/-- A fragment is taken into a tree that stems from the selections, if that of its own selections
does. -/
theorem Stems.takes {gathered next : Gathered} (hSelection : selection ∈ selections)
    (hGathered : ∀ tree ∈ gathered.fragments, setting.Stems selections tree)
    (hOpens : setting.Opens scope selection branch) {into : Except ModelError Gathered}
    (hInto : ∀ inner, into = .ok inner →
      ∀ tree ∈ inner.fragments, setting.Stems branch.selections tree)
    (hNext : setting.Takes type gathered branch into next) :
    ∀ tree ∈ next.fragments, setting.Stems selections tree := by
  rcases hNext with ⟨_, rfl⟩ | ⟨_, _, inner, hInner, rfl⟩
  · exact hGathered
  · intro tree hTree
    rcases List.mem_append.mp hTree with hOld | hNew
    · exact hGathered tree hOld
    · rw [List.mem_singleton.mp hNew]
      exact .intro hSelection hOpens (hInto inner hInner)

/-- Whatever is expanded stems from the selections expanded. -/
def ExpandsStemming (setting : Setting) (expand : Expand) : Prop :=
  ∀ condition selections fields inner, expand condition selections fields = .ok inner →
    ∀ tree ∈ inner.fragments, setting.Stems selections tree

mutual

theorem Stems.gather (hExpand : setting.ExpandsStemming expand) {scope : SchemaType}
    {all : List Selection} {gathered next : Gathered}
    (hGathered : ∀ tree ∈ gathered.fragments, setting.Stems all tree) :
    ∀ selection : Selection, selection ∈ all →
      Setting.gather setting type path expand scope gathered selection = .ok next →
      ∀ tree ∈ next.fragments, setting.Stems all tree
  | .field position label name selections, _, hNext => by
    obtain ⟨merged, _, rfl⟩ :=
      @gather_field _ _ _ _ _ _ _ ⟨position, label, name, selections⟩ hNext
    exact hGathered
  | .spread position name, hMem, hNext => by
    obtain ⟨fragment, branch, _, hOpens, hSelections, hTakes⟩ := gather_spread hNext
    refine Stems.takes hMem hGathered hOpens (fun inner hInner => ?_) hTakes
    rw [hSelections]
    exact hExpand _ _ _ inner hInner
  | .inline position written selections, hMem, hNext => by
    obtain ⟨branch, hOpens, hSelections, hTakes⟩ := gather_inline hNext
    refine Stems.takes hMem hGathered hOpens (fun inner hInner => ?_) hTakes
    rw [hSelections]
    exact Stems.gatherAll hExpand (fun _ hNone => by cases hNone) selections
      (List.Subset.refl _) hInner

theorem Stems.gatherAll (hExpand : setting.ExpandsStemming expand) {scope : SchemaType}
    {all : List Selection} {gathered next : Gathered}
    (hGathered : ∀ tree ∈ gathered.fragments, setting.Stems all tree) :
    ∀ selections : List Selection, selections ⊆ all →
      Setting.gatherAll setting type path expand scope gathered selections = .ok next →
      ∀ tree ∈ next.fragments, setting.Stems all tree
  | [], _, hNext => by
    rw [Setting.gatherAll] at hNext
    cases hNext
    exact hGathered
  | selection :: rest, hSubset, hNext => by
    rw [Setting.gatherAll, Outcome.bind_eq_ok_iff] at hNext
    obtain ⟨middle, hFirst, hRest⟩ := hNext
    obtain ⟨hMem, hOthers⟩ := List.cons_subset.mp hSubset
    exact Stems.gatherAll hExpand (Stems.gather hExpand hGathered selection hMem hFirst) rest
      hOthers hRest

end

theorem expandsStemming_gatherWithin (depth : Nat) :
    setting.ExpandsStemming (setting.gatherWithin type path depth) := by
  induction depth with
  | zero =>
      intro condition selections fields inner hInner
      rw [gatherWithin] at hInner
      have hNone : setting.ExpandsStemming fun _ _ fields => .ok ⟨fields, []⟩ := by
        rintro _ _ _ _ ⟨⟩ _ hTree
        cases hTree
      exact Stems.gatherAll hNone (fun _ hTree => by cases hTree) selections
        (List.Subset.refl _) hInner
  | succ depth ih =>
      intro condition selections fields inner hInner
      rw [gatherWithin] at hInner
      exact Stems.gatherAll ih (fun _ hTree => by cases hTree) selections (List.Subset.refl _)
        hInner

/-- The trees that are collected stem from the selections. -/
theorem stems_of_collectIn {collected : Collected}
    (h : setting.collectIn scope type selections path = .ok collected)
    (hTree : tree ∈ collected.fragments) : setting.Stems selections tree := by
  rw [collectIn, Outcome.bind_eq_ok_iff] at h
  obtain ⟨gathered, hGathered, h⟩ := h
  rw [Outcome.pure_eq_ok_iff] at h
  subst h
  exact expandsStemming_gatherWithin _ _ _ _ gathered hGathered tree hTree

/-- Every node of the tree has selections of the document; it stands for a whole selection set, or
for a fragment that some node of the document opens. -/
def Honest (setting : Setting) (tree : FragmentTree) : Prop :=
  ∀ subtree : FragmentTree, subtree.Within tree →
    subtree.selections ⊆ setting.document.nodes ∧
      ((∃ locations, subtree.origin = .selection locations) ∨
        ∃ scope, ∃ selection ∈ setting.document.nodes,
          setting.Opens scope selection subtree.branch)

theorem Honest.within (h : setting.Honest tree) (hWithin : subtree.Within tree) :
    setting.Honest subtree :=
  fun inner hInner => h inner (hInner.trans hWithin)

theorem Stems.honest (h : setting.Stems selections tree)
    (hNodes : selections ⊆ setting.document.nodes) : setting.Honest tree := by
  induction h with
  | @intro scope selections selection tree hMem hOpens _ ih =>
      have hInside := hOpens.subset_nodes (hNodes hMem)
      intro subtree hWithin
      rcases FragmentTree.within_iff.mp hWithin with rfl | ⟨child, hChild, hInner⟩
      · exact ⟨hInside, .inr ⟨scope, selection, hNodes hMem, hOpens⟩⟩
      · exact ih child hChild hInside subtree hInner

/-- What is merged in a tree is what its selections lead to: no selection leads to a child that
stands for a whole selection set, and those that lead to a fragment lead to what is in it. -/
theorem Merges.leads (hDocument : setting.document.Accepted)
    (hPositions : setting.document.DistinctPositions) {occurrence : Occurrence}
    (h : setting.Merges tree occurrence) (hHonest : setting.Honest tree) :
    setting.document.Leads tree.selections occurrence.node := by
  induction h with
  | own hSelects => exact .field hSelects.2
  | @inner tree child selection _ hSelection hFound _ ih =>
      have hWithin : child.Within tree := .inner (List.mem_of_find?_eq_some hFound) (.self _)
      have hSome := List.find?_some hFound
      have hTo : setting.leadsTo selection child.origin = true := hSome
      have hLeads := ih (hHonest.within hWithin)
      rcases (hHonest child hWithin).2 with ⟨locations, hOrigin⟩ | ⟨scope, opener, hOpener, hOpens⟩
      · rw [hOrigin] at hTo
        cases selection <;> cases hTo
      · exact hOpens.leads_of_leadsTo hDocument hPositions hOpener hSelection
          ((hHonest tree (.self _)).1 hSelection) hTo hLeads

end Setting

end ResponseModels
