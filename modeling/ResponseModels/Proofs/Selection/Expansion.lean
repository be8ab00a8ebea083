import ResponseModels.Proofs.Data.Repeats
import ResponseModels.Proofs.Selection.Growth

/-! The field nodes of a selection set one after the other, as they are met when every fragment that
applies is opened, however often it was opened before. Nodes may be listed again and again; what
counts is the order in which they are listed first. -/
namespace ResponseModels

open GraphQL

namespace GraphQL.Selection

mutual

def decEq : (a b : Selection) → Decidable (a = b)
  | field position label name selections, field position' label' name' selections' =>
    if own : position = position' ∧ label = label' ∧ name = name' then
      match decEqList selections selections' with
      | isTrue equal => isTrue (by rw [own.1, own.2.1, own.2.2, equal])
      | isFalse differ => isFalse fun h => differ (by injection h)
    else isFalse fun h => own (by injection h; refine ⟨?_, ?_, ?_⟩ <;> assumption)
  | spread position name, spread position' name' =>
    if own : position = position' ∧ name = name' then isTrue (by rw [own.1, own.2])
    else isFalse fun h => own (by injection h; refine ⟨?_, ?_⟩ <;> assumption)
  | inline position condition selections, inline position' condition' selections' =>
    if own : position = position' ∧ condition = condition' then
      match decEqList selections selections' with
      | isTrue equal => isTrue (by rw [own.1, own.2, equal])
      | isFalse differ => isFalse fun h => differ (by injection h)
    else isFalse fun h => own (by injection h; refine ⟨?_, ?_⟩ <;> assumption)
  | field .., spread .. => isFalse nofun
  | field .., inline .. => isFalse nofun
  | spread .., field .. => isFalse nofun
  | spread .., inline .. => isFalse nofun
  | inline .., field .. => isFalse nofun
  | inline .., spread .. => isFalse nofun

def decEqList : (as bs : List Selection) → Decidable (as = bs)
  | [], [] => isTrue rfl
  | [], _ :: _ => isFalse nofun
  | _ :: _, [] => isFalse nofun
  | a :: as, b :: bs =>
    match decEq a b with
    | isFalse differ => isFalse fun h => differ (by injection h)
    | isTrue same =>
      match decEqList as bs with
      | isTrue equal => isTrue (by rw [same, equal])
      | isFalse differ => isFalse fun h => differ (by injection h)

end

instance : DecidableEq Selection := decEq

end GraphQL.Selection

deriving instance DecidableEq for FieldNode

namespace Setting

variable {setting : Setting} {type scope : SchemaType} {selections : List Selection}
  {nodes : List FieldNode}

/-- The field nodes that are met in order when a selection set on `scope` is collected at `type` and
every fragment that applies is opened each time. -/
inductive Lists (setting : Setting) (type : SchemaType) :
    SchemaType → List Selection → List FieldNode → Prop
  | nil {scope : SchemaType} : Lists setting type scope [] []
  | field {scope : SchemaType} {node : FieldNode} {rest : List Selection}
      {nodes : List FieldNode} :
    Lists setting type scope rest nodes →
    Lists setting type scope (node.selection :: rest) (node :: nodes)
  | take {scope : SchemaType} {selection : Selection} {branch : Branch} {rest : List Selection}
      {inner nodes : List FieldNode} :
    setting.Opens scope selection branch →
    setting.schema.applies branch.condition type = true →
    Lists setting type branch.condition branch.selections inner →
    Lists setting type scope rest nodes →
    Lists setting type scope (selection :: rest) (inner ++ nodes)
  | skip {scope : SchemaType} {selection : Selection} {branch : Branch} {rest : List Selection}
      {nodes : List FieldNode} :
    setting.Opens scope selection branch →
    setting.schema.applies branch.condition type = false →
    Lists setting type scope rest nodes →
    Lists setting type scope (selection :: rest) nodes

theorem not_reaches_nil {occurrence : Occurrence} :
    ¬ setting.Reaches type scope [] occurrence := by
  intro h
  cases h with
  | field hMem => cases hMem
  | branch hMem => cases hMem

theorem exists_reaches_cons {selection : Selection} {node : FieldNode} :
    (∃ condition, setting.Reaches type scope (selection :: selections) ⟨condition, node⟩) ↔
      (∃ condition, setting.Reaches type scope [selection] ⟨condition, node⟩) ∨
        ∃ condition, setting.Reaches type scope selections ⟨condition, node⟩ := by
  rw [← exists_or, ← List.singleton_append]
  simp only [reaches_append]

namespace Lists

theorem append {front back : List Selection} {others : List FieldNode}
    (h : setting.Lists type scope front nodes) (h' : setting.Lists type scope back others) :
    setting.Lists type scope (front ++ back) (nodes ++ others) := by
  induction h with
  | nil => exact h'
  | field _ ih => exact .field (ih h')
  | take hOpens hApplies hInner _ _ ih =>
      rw [List.append_assoc]
      exact .take hOpens hApplies hInner (ih h')
  | skip hOpens hApplies _ ih => exact .skip hOpens hApplies (ih h')

/-- A selection set lists its nodes in one way. -/
theorem unique {others : List FieldNode} (h : setting.Lists type scope selections nodes)
    (h' : setting.Lists type scope selections others) : nodes = others := by
  induction h generalizing others with
  | nil =>
      cases h'
      rfl
  | @field scope node rest nodes _ ih =>
      generalize hFirst : node.selection = first at h'
      cases h' with
      | field hRest => rw [FieldNode.selection_inj hFirst, ih hRest]
      | take hOpens =>
          rw [← hFirst] at hOpens
          cases hOpens
      | skip hOpens =>
          rw [← hFirst] at hOpens
          cases hOpens
  | take hOpens hApplies _ _ ihInner ih =>
      cases h' with
      | field => cases hOpens
      | take hOpens' _ hInner hRest =>
          rw [hOpens.unique hOpens'] at hInner
          rw [ihInner hInner, ih hRest]
      | skip hOpens' hNot =>
          rw [hOpens.unique hOpens', hApplies] at hNot
          cases hNot
  | skip hOpens hNot _ ih =>
      cases h' with
      | field => cases hOpens
      | take hOpens' hApplies =>
          rw [hOpens.unique hOpens', hNot] at hApplies
          cases hApplies
      | skip _ _ hRest => exact ih hRest

/-- What is listed is what is reached. -/
theorem mem_iff (h : setting.Lists type scope selections nodes) (node : FieldNode) :
    node ∈ nodes ↔ ∃ condition, setting.Reaches type scope selections ⟨condition, node⟩ := by
  induction h with
  | nil => simp [not_reaches_nil]
  | field _ ih =>
      rw [List.mem_cons, ih, exists_reaches_cons]
      simp only [reaches_node, Occurrence.mk.injEq, exists_eq_left]
  | take hOpens hApplies _ _ ihInner ih =>
      rw [List.mem_append, ihInner, ih, exists_reaches_cons]
      simp only [hOpens.reaches_iff, hApplies, true_and]
  | skip hOpens hNot _ ih =>
      rw [ih, exists_reaches_cons]
      simp [hOpens.reaches_iff, hNot]

/-- What an applying branch lists is listed by the selection set in which it is opened. -/
theorem exists_inner (h : setting.Lists type scope selections nodes) {selection : Selection}
    (hSelection : selection ∈ selections) {branch : Branch}
    (hOpens : setting.Opens scope selection branch)
    (hApplies : setting.schema.applies branch.condition type = true) :
    ∃ inner, setting.Lists type branch.condition branch.selections inner ∧ inner ⊆ nodes := by
  induction h with
  | nil => cases hSelection
  | field _ ih =>
      rcases List.mem_cons.mp hSelection with rfl | hRest
      · cases hOpens
      · obtain ⟨inner, hInner, hSubset⟩ := ih hRest hOpens
        exact ⟨inner, hInner, List.subset_cons_of_subset _ hSubset⟩
  | take hOther hTaken hInner _ _ ih =>
      rcases List.mem_cons.mp hSelection with rfl | hRest
      · rw [← hOther.unique hOpens] at hInner
        exact ⟨_, hInner, List.subset_append_left _ _⟩
      · obtain ⟨inner, hInner', hSubset⟩ := ih hRest hOpens
        exact ⟨inner, hInner', List.subset_append_of_subset_right _ hSubset⟩
  | skip hOther hNot _ ih =>
      rcases List.mem_cons.mp hSelection with rfl | hRest
      · rw [hOther.unique hOpens] at hApplies
        rw [hApplies] at hNot
        cases hNot
      · exact ih hRest hOpens

end Lists

end Setting

end ResponseModels
