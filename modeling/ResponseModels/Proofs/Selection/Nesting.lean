import ResponseModels.Proofs.Document.Reached
import ResponseModels.Proofs.Selection.Trees
import Mathlib.Logic.Relation

/-! Field nodes nested in each other, whatever their types. Fragments spread each other in no
cycle, so no field node is nested in itself, and no more field nodes are nested in each other than
there are selections that operations lead to. -/
namespace ResponseModels

open GraphQL

namespace Document

variable {document : Document} {selections : List Selection} {node : FieldNode}

/-- The field node stands among the selections or in a fragment among them, applying or not. -/
inductive Leads (document : Document) : List Selection → FieldNode → Prop
  | field {selections : List Selection} {node : FieldNode} :
    node.selection ∈ selections → Leads document selections node
  | inline {selections inner : List Selection} {position : Position} {condition : Option String}
      {node : FieldNode} :
    .inline position condition inner ∈ selections → Leads document inner node →
    Leads document selections node
  | spread {selections : List Selection} {position : Position} {name : String}
      {fragment : Fragment} {node : FieldNode} :
    .spread position name ∈ selections → document.fragment? name = some fragment →
    Leads document fragment.selections node → Leads document selections node

theorem Leads.mem_reachedNodes (hDocument : document.Accepted)
    (h : document.Leads selections node) (hNodes : selections ⊆ document.reachedNodes) :
    node.selection ∈ document.reachedNodes := by
  induction h with
  | field hMem => exact hNodes hMem
  | inline hMem _ ih => exact ih (inner_subset_reachedNodes (hNodes hMem))
  | spread hMem hFragment _ ih =>
      exact ih (hDocument.fragment_subset_reachedNodes (hNodes hMem) hFragment)

/-- The first field node is nested in the second with no other between them. -/
def NestedIn (document : Document) (inner outer : FieldNode) : Prop :=
  document.Leads outer.selections inner

/-- Nesting comes to an end. The induction is on the ranks of the fragments that are spread, and
for one rank on the size of the selections. -/
theorem acc_nestedIn {rank : String → Nat} (hRanking : Cycle.Ranking document.fragments rank)
    (bound : Nat) (selections : List Selection)
    (hBound : ∀ name ∈ Selection.spreadsAll selections, name ∈ document.fragments.keys →
      rank name < bound)
    {node : FieldNode} (h : document.Leads selections node) : Acc document.NestedIn node := by
  induction bound using Nat.strongRecOn generalizing selections node with
  | _ bound ihBound =>
      induction hSize : Selection.countAll selections using Nat.strongRecOn
        generalizing selections node with
      | _ size ihSize =>
          subst hSize
          cases h with
          | field hMem =>
              refine Acc.intro _ fun inner hInner => ?_
              refine ihSize _ (Selection.countAll_inner_lt hMem) node.selections ?_ hInner rfl
              exact fun name hName => hBound name (Selection.spreadsAll_inner_subset hMem hName)
          | @inline _ inner _ _ _ hMem hInner =>
              refine ihSize _ (Selection.countAll_inner_lt hMem) inner ?_ hInner rfl
              exact fun name hName => hBound name (Selection.spreadsAll_inner_subset hMem hName)
          | @spread _ _ name fragment _ hMem hFragment hInner =>
              have hSpread : name ∈ Selection.spreadsAll selections :=
                Selection.mem_spreadsAll.mpr ⟨_, hMem, List.mem_singleton.mpr rfl⟩
              have hRank := hBound name hSpread (Cycle.mem_keys_of_get? hFragment)
              exact ihBound (rank name) hRank fragment.selections
                (fun next hNext hDefined => hRanking.falls hFragment next hNext hDefined) hInner

theorem Accepted.not_nestedIn_self (h : document.Accepted)
    (hNode : node.selection ∈ document.nodes) :
    ¬ Relation.TransGen document.NestedIn node node := by
  obtain ⟨rank, hRanking⟩ := h.exists_ranking
  have hAcc : Acc (Relation.TransGen document.NestedIn) node :=
    acc_transGen_iff.mpr (acc_nestedIn hRanking _ document.nodes
      (fun name _ hDefined => hRanking.bounded name hDefined) (.field hNode))
  clear hNode
  induction hAcc with
  | intro node _ ih => exact fun hSelf => ih node hSelf hSelf

/-- Field nodes that operations lead to, each nested in the next. -/
inductive Nested (document : Document) : List FieldNode → Prop
  | nil : Nested document []
  | outermost {node : FieldNode} : node.selection ∈ document.reachedNodes → Nested document [node]
  | inner {node outer : FieldNode} {rest : List FieldNode} :
    Nested document (outer :: rest) → document.NestedIn node outer →
    Nested document (node :: outer :: rest)

theorem Nested.mem_reachedNodes (hDocument : document.Accepted) {chain : List FieldNode}
    (h : document.Nested chain) (hNode : node ∈ chain) :
    node.selection ∈ document.reachedNodes := by
  induction h generalizing node with
  | nil => cases hNode
  | outermost hMem => rwa [List.mem_singleton.mp hNode]
  | @inner first outer rest _ hNested ih =>
      rcases List.mem_cons.mp hNode with rfl | hNode
      · exact Leads.mem_reachedNodes hDocument hNested
          (inner_subset_reachedNodes (ih List.mem_cons_self))
      · exact ih hNode

theorem Nested.transGen {chain : List FieldNode} {first : FieldNode}
    (h : document.Nested (first :: chain)) (hNode : node ∈ chain) :
    Relation.TransGen document.NestedIn first node := by
  induction chain generalizing first with
  | nil => cases hNode
  | cons outer rest ih =>
      cases h with
      | inner hOuter hNested =>
          rcases List.mem_cons.mp hNode with rfl | hNode
          · exact .single hNested
          · exact .trans (.single hNested) (ih hOuter hNode)

theorem Nested.nodup (hDocument : document.Accepted) {chain : List FieldNode}
    (h : document.Nested chain) : chain.Nodup := by
  induction h with
  | nil => exact List.nodup_nil
  | outermost => simp
  | @inner first outer rest hOuter hNested ih =>
      refine List.nodup_cons.mpr ⟨fun hMem => ?_, ih⟩
      have hChain : document.Nested (first :: outer :: rest) := .inner hOuter hNested
      have hReached := hChain.mem_reachedNodes hDocument List.mem_cons_self
      exact hDocument.not_nestedIn_self (reachedNodes_subset hReached) (hChain.transGen hMem)

/-- Nested field nodes are no more than the selections that operations lead to. -/
theorem Nested.length_le (hDocument : document.Accepted) {chain : List FieldNode}
    (h : document.Nested chain) : chain.length ≤ document.reachedCount := by
  have hNodup : (chain.map FieldNode.selection).Nodup :=
    (h.nodup hDocument).map fun _ _ hSame => FieldNode.selection_inj hSame
  have hSubset : chain.map FieldNode.selection ⊆ document.reachedNodes := by
    intro selection hSelection
    obtain ⟨node, hNode, rfl⟩ := List.mem_map.mp hSelection
    exact h.mem_reachedNodes hDocument hNode
  have hLength := (hNodup.subperm hSubset).length_le
  rwa [List.length_map, length_reachedNodes] at hLength

end Document

end ResponseModels
