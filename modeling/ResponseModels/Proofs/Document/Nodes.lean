import ResponseModels.Document.Basic
import ResponseModels.Proofs.Schema.WellFormed
import Mathlib.Data.List.Nodup
import Mathlib.Data.List.Pairwise
import Mathlib.Data.List.Perm.Basic

/-! The nodes of a document. Operations, fragments and selections are known by their positions;
where no two of them share one, a position tells the node, and every selection stands in the
selection set of one node only. -/
namespace ResponseModels

open GraphQL

namespace GraphQL.Selection

def position : Selection → Position
  | field position _ _ _ => position
  | spread position _ => position
  | inline position _ _ => position

/-- The selection set that the selection carries. -/
def inner : Selection → List Selection
  | field _ _ _ selections => selections
  | spread _ _ => []
  | inline _ _ selections => selections

mutual

/-- The selection and all selections in it, at any depth. -/
def nodes : Selection → List Selection
  | field position label name selections =>
    field position label name selections :: nodesOf selections
  | spread position fragment => [spread position fragment]
  | inline position condition selections =>
    inline position condition selections :: nodesOf selections

/-- The selections of a list and all selections in them, at any depth. -/
def nodesOf : List Selection → List Selection
  | [] => []
  | selection :: rest => selection.nodes ++ nodesOf rest

end

theorem nodes_eq (selection : Selection) :
    selection.nodes = selection :: nodesOf selection.inner := by
  cases selection <;> rfl

theorem mem_nodesOf {node : Selection} {selections : List Selection} :
    node ∈ nodesOf selections ↔ ∃ selection ∈ selections, node ∈ selection.nodes := by
  induction selections with
  | nil => simp [nodesOf]
  | cons first rest ih => simp [nodesOf, ih]

mutual

theorem length_nodes : ∀ selection : Selection, selection.nodes.length = selection.count
  | field _ _ _ selections => by
    rw [nodes, count, List.length_cons, length_nodesOf selections]
  | spread _ _ => rfl
  | inline _ _ selections => by
    rw [nodes, count, List.length_cons, length_nodesOf selections]

theorem length_nodesOf :
    ∀ selections : List Selection, (nodesOf selections).length = countAll selections
  | [] => rfl
  | selection :: rest => by
    rw [nodesOf, countAll, List.length_append, length_nodes selection, length_nodesOf rest]

end

theorem countAll_inner_lt_cons (selection : Selection) (rest : List Selection) :
    countAll selection.inner < countAll (selection :: rest) := by
  rw [countAll]
  cases selection <;> simp only [inner, count, countAll] <;> omega

theorem countAll_lt_cons (selection : Selection) (rest : List Selection) :
    countAll rest < countAll (selection :: rest) := by
  rw [countAll]
  cases selection <;> simp only [count] <;> omega

/-- The nodes in a list are the list's own items and the items of all selection sets in it. -/
theorem nodesOf_perm (selections : List Selection) :
    (nodesOf selections).Perm (selections ++ (nodesOf selections).flatMap inner) := by
  match selections with
  | [] => exact List.Perm.refl _
  | selection :: rest =>
      have hInner := countAll_inner_lt_cons selection rest
      have hRest := countAll_lt_cons selection rest
      have first := nodesOf_perm selection.inner
      have second := nodesOf_perm rest
      rw [nodesOf, nodes_eq, List.cons_append, List.cons_append, List.flatMap_cons,
        List.flatMap_append]
      refine List.Perm.cons _ ((first.append second).trans ?_)
      simp only [List.append_assoc]
      refine (List.perm_append_comm_assoc _ _ _).trans ?_
      refine (List.Perm.append_left _ (List.perm_append_comm_assoc _ _ _)).trans ?_
      refine (List.perm_append_comm_assoc _ _ _).trans ?_
      exact List.Perm.append_left _ (List.perm_append_comm_assoc _ _ _)
termination_by countAll selections

end GraphQL.Selection

namespace Document

variable {document : Document}

/-- The selections of the document at any depth. -/
def nodes (document : Document) : List Selection :=
  Selection.nodesOf (document.operations.flatMap Operation.selections) ++
    Selection.nodesOf (document.fragments.values.flatMap Fragment.selections)

/-- The selection set of every node, with the node's position. -/
def bodies (document : Document) : List (Position × List Selection) :=
  document.operations.map (fun operation => (operation.position, operation.selections)) ++
    (document.fragments.values.map (fun fragment => (fragment.position, fragment.selections)) ++
      document.nodes.map (fun node => (node.position, node.inner)))

/-- No two nodes have the same position. -/
def DistinctPositions (document : Document) : Prop := (document.bodies.map Prod.fst).Nodup

instance (document : Document) : Decidable document.DistinctPositions :=
  inferInstanceAs (Decidable (List.Nodup _))

theorem body_of_operation {operation : Operation} (h : operation ∈ document.operations) :
    (operation.position, operation.selections) ∈ document.bodies :=
  List.mem_append_left _ (List.mem_map_of_mem h)

theorem body_of_fragment {fragment : Fragment} (h : fragment ∈ document.fragments.values) :
    (fragment.position, fragment.selections) ∈ document.bodies :=
  List.mem_append_right _ (List.mem_append_left _ (List.mem_map_of_mem h))

theorem body_of_node {node : Selection} (h : node ∈ document.nodes) :
    (node.position, node.inner) ∈ document.bodies :=
  List.mem_append_right _ (List.mem_append_right _ (List.mem_map_of_mem h))

/-- Every node stands in exactly one selection set. -/
theorem nodes_perm (document : Document) :
    document.nodes.Perm (document.bodies.flatMap Prod.snd) := by
  have first := Selection.nodesOf_perm (document.operations.flatMap Operation.selections)
  have second := Selection.nodesOf_perm (document.fragments.values.flatMap Fragment.selections)
  unfold bodies nodes
  refine (first.append second).trans ?_
  simp only [List.flatMap_append, List.flatMap_map, List.append_assoc]
  exact List.Perm.append_left _ (List.perm_append_comm_assoc _ _ _)

theorem mem_nodes_of_body {position : Position} {selections : List Selection}
    (hBody : (position, selections) ∈ document.bodies) {node : Selection}
    (hNode : node ∈ selections) : node ∈ document.nodes :=
  (document.nodes_perm.mem_iff).mpr (List.mem_flatMap.mpr ⟨_, hBody, hNode⟩)

namespace DistinctPositions

variable (h : document.DistinctPositions)

include h

theorem nodup_node_positions : (document.nodes.map Selection.position).Nodup := by
  have hAll := h
  unfold DistinctPositions bodies at hAll
  simp only [List.map_append, List.map_map] at hAll
  exact (List.nodup_append.mp (List.nodup_append.mp hAll).2.1).2.1

theorem node_eq {node other : Selection} (hNode : node ∈ document.nodes)
    (hOther : other ∈ document.nodes) (hSame : node.position = other.position) : node = other :=
  List.inj_on_of_nodup_map h.nodup_node_positions hNode hOther hSame

/-- A position tells the selection set. -/
theorem body_eq {position : Position} {some other : List Selection}
    (hSome : (position, some) ∈ document.bodies) (hOther : (position, other) ∈ document.bodies) :
    some = other := by
  have hSame := List.inj_on_of_nodup_map h hSome hOther rfl
  exact (Prod.mk.inj hSame).2

/-- A selection tells the node in whose selection set it stands. -/
theorem owner_eq {position other : Position} {selections others : List Selection}
    (hBody : (position, selections) ∈ document.bodies)
    (hOther : (other, others) ∈ document.bodies) {node : Selection} (hNode : node ∈ selections)
    (hNodeOther : node ∈ others) : position = other := by
  by_contra hDiffer
  have hNodup : (document.bodies.flatMap Prod.snd).Nodup :=
    document.nodes_perm.nodup_iff.mp (List.Nodup.of_map _ h.nodup_node_positions)
  have : Std.Symm (Function.onFun List.Disjoint (Prod.snd (α := Position) (β := List Selection))) :=
    ⟨fun _ _ hApart _ hLeft hRight => hApart hRight hLeft⟩
  have hDisjoint := (List.nodup_flatMap.mp hNodup).2.forall hBody hOther
    (fun hSame => hDiffer (Prod.mk.inj hSame).1)
  exact hDisjoint hNode hNodeOther

theorem operation_ne_node {operation : Operation} (hOperation : operation ∈ document.operations)
    {node : Selection} (hNode : node ∈ document.nodes) : operation.position ≠ node.position := by
  have hAll := h
  unfold DistinctPositions bodies at hAll
  rw [List.map_append, List.nodup_append] at hAll
  refine hAll.2.2 _ ?_ _ ?_
  · exact List.mem_map.mpr ⟨_, List.mem_map_of_mem hOperation, rfl⟩
  · rw [List.map_append]
    exact List.mem_append_right _ (List.mem_map.mpr ⟨_, List.mem_map_of_mem hNode, rfl⟩)

theorem fragment_ne_node {fragment : Fragment} (hFragment : fragment ∈ document.fragments.values)
    {node : Selection} (hNode : node ∈ document.nodes) : fragment.position ≠ node.position := by
  have hAll := h
  unfold DistinctPositions bodies at hAll
  rw [List.map_append, List.nodup_append, List.map_append, List.nodup_append] at hAll
  refine hAll.2.1.2.2 _ ?_ _ ?_
  · exact List.mem_map.mpr ⟨_, List.mem_map_of_mem hFragment, rfl⟩
  · exact List.mem_map.mpr ⟨_, List.mem_map_of_mem hNode, rfl⟩

theorem operation_ne_fragment {operation : Operation}
    (hOperation : operation ∈ document.operations) {fragment : Fragment}
    (hFragment : fragment ∈ document.fragments.values) :
    operation.position ≠ fragment.position := by
  have hAll := h
  unfold DistinctPositions bodies at hAll
  rw [List.map_append, List.nodup_append] at hAll
  refine hAll.2.2 _ ?_ _ ?_
  · exact List.mem_map.mpr ⟨_, List.mem_map_of_mem hOperation, rfl⟩
  · rw [List.map_append]
    exact List.mem_append_left _ (List.mem_map.mpr ⟨_, List.mem_map_of_mem hFragment, rfl⟩)

theorem fragment_eq {fragment other : Fragment} (hFragment : fragment ∈ document.fragments.values)
    (hOther : other ∈ document.fragments.values) (hSame : fragment.position = other.position) :
    fragment = other := by
  have hAll := h
  unfold DistinctPositions bodies at hAll
  simp only [List.map_append, List.map_map, List.nodup_append] at hAll
  exact List.inj_on_of_nodup_map hAll.2.1.1 hFragment hOther hSame

theorem nodup_operation_positions : (document.operations.map Operation.position).Nodup := by
  have hAll := h
  unfold DistinctPositions bodies at hAll
  rw [List.map_append, List.nodup_append, List.map_map] at hAll
  exact hAll.1

end DistinctPositions

/-- A document that is made from definitions, be it by way of a text or of a file. -/
def Accepted (document : Document) : Prop :=
  ∃ file items, Document.ofItems file items = .ok document

theorem Accepted.ofText {file : SourcePath} {text : String}
    (h : Document.ofText file text = .ok document) : document.Accepted := by
  unfold Document.ofText at h
  cases hItems : readExecutable? text with
  | none =>
      rw [hItems] at h
      cases h
  | some items =>
      rw [hItems] at h
      exact ⟨file, items, h⟩

theorem Accepted.collected (h : document.Accepted) :
    ∃ file definitions, collectFragments file definitions = .ok document.fragments := by
  obtain ⟨file, items, hItems⟩ := h
  unfold Document.ofItems at hItems
  rw [Outcome.bind_eq_ok_iff] at hItems
  obtain ⟨fragments, hFragments, hDocument⟩ := hItems
  cases hDocument
  exact ⟨file, _, hFragments⟩

/-- Fragments stand under their own names, and no cycle of spreads was found among them. -/
theorem Accepted.keyed_and_cycleFree (h : document.Accepted) :
    document.fragments.Keyed Fragment.name ∧ Cycle.find document.fragments = [] := by
  obtain ⟨file, definitions, hFragments⟩ := h.collected
  unfold collectFragments at hFragments
  rw [Outcome.bind_eq_ok_iff] at hFragments
  obtain ⟨fragments, hFold, hCycle⟩ := hFragments
  have hKeyed : fragments.Keyed Fragment.name := by
    refine Outcome.foldlM_keeps (P := fun fragments : Fragments =>
      fragments.Keyed Fragment.name) ?_ (.empty _) hFold
    intro fragments fragment next _ hKeyed hNext
    unfold addFragment at hNext
    split at hNext
    · cases hNext
    · cases hNext
      exact hKeyed.insert rfl
  split at hCycle
  · cases hCycle
  · rename_i hNone
    cases hCycle
    exact ⟨hKeyed, hNone⟩

theorem Accepted.keyed (h : document.Accepted) : document.fragments.Keyed Fragment.name :=
  h.keyed_and_cycleFree.1

theorem Accepted.fragment?_name (h : document.Accepted) {name : String} {fragment : Fragment}
    (hFound : document.fragment? name = some fragment) : fragment.name = name :=
  h.keyed.name_of_get? hFound

theorem mem_values_of_fragment? {name : String} {fragment : Fragment}
    (hFound : document.fragment? name = some fragment) : fragment ∈ document.fragments.values :=
  OrderedMap.mem_values_of_get? hFound

end Document

end ResponseModels
