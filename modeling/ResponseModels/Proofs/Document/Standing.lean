import ResponseModels.Proofs.Document.Nodes
import ResponseModels.Proofs.Selection.Trees

/-! Where field nodes stand. Inline fragments left aside, a field node stands in the selection set
of one operation, one fragment or one other field node, and stands there once. -/
namespace ResponseModels

open GraphQL

namespace GraphQL.Selection

mutual

/-- The field nodes in a selection that are not inside of another field. -/
def ownFields : Selection → List FieldNode
  | field position label name selections => [⟨position, label, name, selections⟩]
  | spread _ _ => []
  | inline _ _ selections => ownFieldsOf selections

/-- The field nodes in a list of selections that are not inside of another field. -/
def ownFieldsOf : List Selection → List FieldNode
  | [] => []
  | selection :: rest => selection.ownFields ++ ownFieldsOf rest

end

theorem ownFieldsOf_append (front back : List Selection) :
    ownFieldsOf (front ++ back) = ownFieldsOf front ++ ownFieldsOf back := by
  induction front with
  | nil => rfl
  | cons first rest ih => simp [ownFieldsOf, ih]

theorem ownFieldsOf_flatMap {α : Type} (items : List α) (body : α → List Selection) :
    ownFieldsOf (items.flatMap body) = items.flatMap fun item => ownFieldsOf (body item) := by
  induction items with
  | nil => rfl
  | cons first rest ih => rw [List.flatMap_cons, List.flatMap_cons, ownFieldsOf_append, ih]

theorem nodesOf_append (front back : List Selection) :
    nodesOf (front ++ back) = nodesOf front ++ nodesOf back := by
  induction front with
  | nil => rfl
  | cons first rest ih => simp [nodesOf, ih]

mutual

theorem ownFields_sublist :
    ∀ selection : Selection, (selection.ownFields.map FieldNode.selection).Sublist selection.nodes
  | field position label name selections => by
    rw [ownFields, nodes, List.map_singleton]
    exact (List.nil_sublist _).cons_cons _
  | spread _ _ => List.nil_sublist _
  | inline _ _ selections => by
    rw [ownFields, nodes]
    exact (ownFieldsOf_sublist selections).cons _

theorem ownFieldsOf_sublist : ∀ selections : List Selection,
    ((ownFieldsOf selections).map FieldNode.selection).Sublist (nodesOf selections)
  | [] => List.nil_sublist _
  | selection :: rest => by
    rw [ownFieldsOf, nodesOf, List.map_append]
    exact (ownFields_sublist selection).append (ownFieldsOf_sublist rest)

end

/-- The nodes inside of a node are among those that it is among. -/
theorem nodesOf_inner_sublist {node : Selection} (selections : List Selection)
    (h : node ∈ nodesOf selections) : (nodesOf node.inner).Sublist (nodesOf selections) := by
  match selections with
  | [] => cases h
  | first :: rest =>
      have hInner := countAll_inner_lt_cons first rest
      have hRest := countAll_lt_cons first rest
      rw [nodesOf, nodes_eq] at h ⊢
      rcases List.mem_append.mp h with h | h
      · apply List.Sublist.trans _ (List.sublist_append_left _ _)
        rcases List.mem_cons.mp h with rfl | h
        · exact List.sublist_cons_self _ _
        · exact (nodesOf_inner_sublist first.inner h).cons _
      · exact (nodesOf_inner_sublist rest h).trans (List.sublist_append_right _ _)
termination_by countAll selections

end GraphQL.Selection

namespace Document

variable {document : Document}

theorem nodesOf_sublist_flatMap {α : Type} {items : List α} {item : α}
    (body : α → List Selection) (h : item ∈ items) :
    (Selection.nodesOf (body item)).Sublist (Selection.nodesOf (items.flatMap body)) := by
  obtain ⟨front, back, rfl⟩ := List.append_of_mem h
  rw [List.flatMap_append, List.flatMap_cons, Selection.nodesOf_append, Selection.nodesOf_append]
  exact (List.sublist_append_left _ _).trans (List.sublist_append_right _ _)

/-- The nodes in a selection set are among the document's nodes. -/
theorem nodesOf_sublist_nodes {position : Position} {selections : List Selection}
    (h : (position, selections) ∈ document.bodies) :
    (Selection.nodesOf selections).Sublist document.nodes := by
  rcases List.mem_append.mp h with h | h
  · obtain ⟨operation, hOperation, hSame⟩ := List.mem_map.mp h
    cases hSame
    exact (nodesOf_sublist_flatMap Operation.selections hOperation).trans
      (List.sublist_append_left _ _)
  · rcases List.mem_append.mp h with h | h
    · obtain ⟨fragment, hFragment, hSame⟩ := List.mem_map.mp h
      cases hSame
      exact (nodesOf_sublist_flatMap Fragment.selections hFragment).trans
        (List.sublist_append_right _ _)
    · obtain ⟨node, hNode, hSame⟩ := List.mem_map.mp h
      cases hSame
      unfold nodes at hNode ⊢
      rw [← Selection.nodesOf_append] at hNode ⊢
      exact Selection.nodesOf_inner_sublist _ hNode

/-- A field node occurs once in a selection set. -/
theorem DistinctPositions.nodup_ownFields (h : document.DistinctPositions) {position : Position}
    {selections : List Selection} (hBody : (position, selections) ∈ document.bodies) :
    (Selection.ownFieldsOf selections).Nodup := by
  have hNodes : document.nodes.Nodup := List.Nodup.of_map _ h.nodup_node_positions
  have hOwn := (Selection.ownFieldsOf_sublist selections).trans (nodesOf_sublist_nodes hBody)
  exact List.Nodup.of_map _ (hNodes.sublist hOwn)

/-- The selection stands in the selection set at the position, inline fragments left aside. -/
inductive StandsIn (document : Document) : Selection → Position → Prop
  | body {position : Position} {selections : List Selection} {selection : Selection} :
    (position, selections) ∈ document.bodies → selection ∈ selections →
    StandsIn document selection position
  | inline {position place : Position} {condition : Option String} {selections : List Selection}
      {selection : Selection} :
    .inline place condition selections ∈ document.nodes → selection ∈ selections →
    StandsIn document (.inline place condition selections) position →
    StandsIn document selection position

/-- The position is not that of an inline fragment. -/
def NotInline (document : Document) (position : Position) : Prop :=
  ∀ place condition selections,
    .inline place condition selections ∈ document.nodes → place ≠ position

theorem DistinctPositions.notInline_operation (h : document.DistinctPositions)
    {operation : Operation} (hOperation : operation ∈ document.operations) :
    document.NotInline operation.position :=
  fun _ _ _ hNode hSame => h.operation_ne_node hOperation hNode hSame.symm

theorem DistinctPositions.notInline_fragment (h : document.DistinctPositions)
    {fragment : Fragment} (hFragment : fragment ∈ document.fragments.values) :
    document.NotInline fragment.position :=
  fun _ _ _ hNode hSame => h.fragment_ne_node hFragment hNode hSame.symm

theorem DistinctPositions.notInline_field (h : document.DistinctPositions) {node : FieldNode}
    (hField : node.selection ∈ document.nodes) : document.NotInline node.position := by
  intro place condition selections hNode hSame
  have hEqual := h.node_eq hNode hField hSame
  cases hEqual

/-- The selection sets that requests are made for: those of operations and of field nodes, each
with the position of its node. -/
inductive Requestable (document : Document) : Position × List Selection → Prop
  | operation {operation : Operation} : operation ∈ document.operations →
    Requestable document (operation.position, operation.selections)
  | field {node : FieldNode} : node.selection ∈ document.nodes →
    Requestable document (node.position, node.selections)

namespace Requestable

variable {body : Position × List Selection}

theorem mem_bodies (h : document.Requestable body) : body ∈ document.bodies := by
  cases h with
  | operation hOperation => exact body_of_operation hOperation
  | field hNode => exact body_of_node hNode

theorem notInline (h : document.Requestable body) (hDocument : document.DistinctPositions) :
    document.NotInline body.1 := by
  cases h with
  | operation hOperation => exact hDocument.notInline_operation hOperation
  | field hNode => exact hDocument.notInline_field hNode

theorem ne_fragment (h : document.Requestable body) (hDocument : document.DistinctPositions)
    {fragment : Fragment} (hFragment : fragment ∈ document.fragments.values) :
    body.1 ≠ fragment.position := by
  cases h with
  | operation hOperation => exact hDocument.operation_ne_fragment hOperation hFragment
  | field hNode => exact Ne.symm (hDocument.fragment_ne_node hFragment hNode)

end Requestable

/-- A selection stands in one selection set. -/
theorem StandsIn.unique (hDocument : document.DistinctPositions) {selection : Selection}
    {position other : Position} (h : document.StandsIn selection position)
    (h' : document.StandsIn selection other) (hPosition : document.NotInline position)
    (hOther : document.NotInline other) : position = other := by
  induction h with
  | body hBody hMem =>
      cases h' with
      | body hBody' hMem' => exact hDocument.owner_eq hBody hBody' hMem hMem'
      | inline hNode hMem' =>
          exact absurd (hDocument.owner_eq (body_of_node hNode) hBody hMem' hMem)
            (hPosition _ _ _ hNode)
  | inline hNode hMem _ ih =>
      cases h' with
      | body hBody' hMem' =>
          exact absurd (hDocument.owner_eq (body_of_node hNode) hBody' hMem hMem')
            (hOther _ _ _ hNode)
      | inline hNode' hMem' hOuter =>
          have hSame := hDocument.owner_eq (body_of_node hNode) (body_of_node hNode') hMem hMem'
          rw [← hDocument.node_eq hNode hNode' hSame] at hOuter
          exact ih hOuter hPosition

mutual

theorem StandsIn.ownFields {position : Position} {node : FieldNode} :
    ∀ selection : Selection, selection ∈ document.nodes → document.StandsIn selection position →
      node ∈ selection.ownFields → document.StandsIn node.selection position
  | .field _ _ _ _, _, hStands, hNode => by
    rw [List.mem_singleton.mp hNode]
    exact hStands
  | .spread _ _, _, _, hNode => by cases hNode
  | .inline _ _ selections, hMem, hStands, hNode => by
    refine StandsIn.ownFieldsOf selections ?_ ?_ hNode
    · exact fun _ hInner => mem_nodes_of_body (body_of_node hMem) hInner
    · exact fun _ hInner => .inline hMem hInner hStands

theorem StandsIn.ownFieldsOf {position : Position} {node : FieldNode} :
    ∀ selections : List Selection, selections ⊆ document.nodes →
      (∀ selection ∈ selections, document.StandsIn selection position) →
      node ∈ Selection.ownFieldsOf selections → document.StandsIn node.selection position
  | [], _, _, hNode => by cases hNode
  | selection :: rest, hNodes, hStands, hNode => by
    rcases List.mem_append.mp hNode with hNode | hNode
    · exact StandsIn.ownFields selection (hNodes List.mem_cons_self)
        (hStands _ List.mem_cons_self) hNode
    · exact StandsIn.ownFieldsOf rest (fun _ hRest => hNodes (List.mem_cons_of_mem _ hRest))
        (fun _ hRest => hStands _ (List.mem_cons_of_mem _ hRest)) hNode

end

/-- Selection sets that are not those of inline fragments share no field node. -/
theorem DistinctPositions.disjoint_ownFields (h : document.DistinctPositions)
    {position other : Position} {selections others : List Selection}
    (hBody : (position, selections) ∈ document.bodies)
    (hOther : (other, others) ∈ document.bodies) (hDiffer : position ≠ other)
    (hPosition : document.NotInline position) (hOtherPosition : document.NotInline other) :
    (Selection.ownFieldsOf selections).Disjoint (Selection.ownFieldsOf others) := by
  intro node hNode hNodeOther
  have hFirst := StandsIn.ownFieldsOf selections (fun _ hMem => mem_nodes_of_body hBody hMem)
    (fun _ hMem => .body hBody hMem) hNode
  have hSecond := StandsIn.ownFieldsOf others (fun _ hMem => mem_nodes_of_body hOther hMem)
    (fun _ hMem => .body hOther hMem) hNodeOther
  exact hDiffer (hFirst.unique h hSecond hPosition hOtherPosition)

end Document

end ResponseModels
