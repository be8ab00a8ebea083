import ResponseModels.Model.Interface
import ResponseModels.Proofs.Hoisting
import ResponseModels.Proofs.Model.Steps

/-! What is done with a fragment tree and then with the trees in it, given by rules without a bound
on how deep these lie: merging the fields of a tree, making its interface, and giving way to a
fragment in it. Each comes to an end, with the outcome that it has by recursion. -/
namespace ResponseModels

open GraphQL

namespace Setting

/-- What merging the fields of selections on `condition` comes to, one after the other, with the
places of the subtrees that have been visited and the fields that were merged before. -/
inductive Flattens (setting : Setting) (path : ModelPath) : SchemaType → List FragmentTree →
    List Nat → List MergedField → List Selection → Except ModelError (List MergedField) → Prop
  | done {condition : SchemaType} {children : List FragmentTree} {visited : List Nat}
      {fields : List MergedField} :
    Flattens setting path condition children visited fields [] (.ok fields)
  | field {condition : SchemaType} {children : List FragmentTree} {visited : List Nat}
      {fields more : List MergedField} {node : FieldNode} {rest : List Selection}
      {outcome : Except ModelError (List MergedField)} :
    setting.mergeField condition path fields node = .ok more →
    Flattens setting path condition children visited more rest outcome →
    Flattens setting path condition children visited fields (node.selection :: rest) outcome
  | unknown {condition : SchemaType} {children : List FragmentTree} {visited : List Nat}
      {fields : List MergedField} {node : FieldNode} {rest : List Selection}
      {cause : ModelError} :
    setting.mergeField condition path fields node = .error cause →
    Flattens setting path condition children visited fields (node.selection :: rest)
      (.error cause)
  /-- The selection leads to no subtree, or to one that has been visited. -/
  | pass {condition : SchemaType} {children : List FragmentTree} {visited : List Nat}
      {fields : List MergedField} {selection : Selection} {rest : List Selection}
      {outcome : Except ModelError (List MergedField)} :
    selection.isField = false →
    (∀ index, children.findIdx? (setting.leadsTo selection ·.origin) = some index →
      index ∈ visited) →
    Flattens setting path condition children visited fields rest outcome →
    Flattens setting path condition children visited fields (selection :: rest) outcome
  | inside {condition : SchemaType} {children : List FragmentTree} {visited : List Nat}
      {fields : List MergedField} {selection : Selection} {rest : List Selection} {index : Nat}
      {child : FragmentTree} {cause : ModelError} :
    children.findIdx? (setting.leadsTo selection ·.origin) = some index → index ∉ visited →
    children[index]? = some child →
    Flattens setting path child.condition child.children [] fields child.selections
      (.error cause) →
    Flattens setting path condition children visited fields (selection :: rest) (.error cause)
  | take {condition : SchemaType} {children : List FragmentTree} {visited : List Nat}
      {fields inner : List MergedField} {selection : Selection} {rest : List Selection}
      {index : Nat} {child : FragmentTree} {outcome : Except ModelError (List MergedField)} :
    children.findIdx? (setting.leadsTo selection ·.origin) = some index → index ∉ visited →
    children[index]? = some child →
    Flattens setting path child.condition child.children [] fields child.selections
      (.ok inner) →
    Flattens setting path condition children (index :: visited) inner rest outcome →
    Flattens setting path condition children visited fields (selection :: rest) outcome

variable {setting : Setting} {path : ModelPath}

/-- The selections of a node are gone through to the end, if those of its subtrees are. -/
theorem flattens_flattenSelections {children : List FragmentTree}
    (hChildren : ∀ child ∈ children, ∀ fields, setting.Flattens path child.condition
      child.children [] fields child.selections (setting.flattenInto path child fields))
    (condition : SchemaType) (visited : List Nat) (fields : List MergedField)
    (selections : List Selection) :
    setting.Flattens path condition children visited fields selections
      (setting.flattenSelections path condition (setting.flattenEach path children) visited fields
        selections) := by
  induction selections generalizing visited fields with
  | nil =>
      rw [flattenSelections]
      exact .done
  | cons selection rest ih =>
      cases hField : selection.isField with
      | true =>
          cases selection with
          | field position label name inner =>
              rw [flattenSelections]
              cases hMerge : setting.mergeField condition path fields
                  ⟨position, label, name, inner⟩ with
              | error cause => exact .unknown hMerge
              | ok more => exact .field hMerge (ih _ _)
          | spread => cases hField
          | inline => cases hField
      | false =>
          rw [flattenSelections_fragment (ne_field_of_not_isField hField)]
          cases hIndex : children.findIdx? (setting.leadsTo selection ·.origin) with
          | none => exact .pass hField (by simp [hIndex]) (ih _ _)
          | some index =>
              dsimp only
              split
              · rename_i hSeen
                exact .pass hField (by simp [hIndex, hSeen]) (ih _ _)
              · rename_i hUnseen
                obtain ⟨hBound, _⟩ := List.findIdx?_eq_some_iff_getElem.mp hIndex
                have hChild : children[index]? = some children[index] :=
                  List.getElem?_eq_getElem hBound
                have hInto := hChildren _ (List.getElem_mem hBound) fields
                rw [hChild]
                dsimp only
                cases hOutcome : setting.flattenInto path children[index] fields with
                | error cause => exact .inside hIndex hUnseen hChild (hOutcome ▸ hInto)
                | ok inner => exact .take hIndex hUnseen hChild (hOutcome ▸ hInto) (ih _ _)

/-- The subtrees of a tree are followed to the end. -/
theorem flattens_flattenInto (tree : FragmentTree) (fields : List MergedField) :
    setting.Flattens path tree.condition tree.children [] fields tree.selections
      (setting.flattenInto path tree fields) := by
  induction tree using FragmentTree.induct generalizing fields with
  | node tree ih =>
      cases tree
      rw [flattenInto]
      exact flattens_flattenSelections ih _ _ _ _

end Setting

namespace Build

mutual

/-- What making the interface of a tree comes to, and the session that it leaves. -/
inductive Synthesizes (task : Task) (path : ModelPath) :
    Session → FragmentTree → Except ModelError InterfaceModel → Session → Prop
  | kept {session : Session} {tree : FragmentTree} {model : InterfaceModel} :
    session.interface? tree.key = some model →
    Synthesizes task path session tree (.ok model) session
  | beneath {session after : Session} {tree : FragmentTree} {cause : ModelError} :
    session.interface? tree.key = none →
    SynthesizesEach task path session tree.children (.error cause) after →
    Synthesizes task path session tree (.error cause) after
  | made {session middle after : Session} {tree : FragmentTree}
      {bases : List (InterfaceModel × List MergedField)}
      {outcome : Except ModelError InterfaceModel} :
    session.interface? tree.key = none →
    SynthesizesEach task path session tree.children (.ok bases) middle →
    (assemble task path tree bases).run middle = (outcome, after) →
    Synthesizes task path session tree outcome after

/-- What making the interfaces of trees comes to, one after the other. -/
inductive SynthesizesEach (task : Task) (path : ModelPath) :
    Session → List FragmentTree → Except ModelError (List (InterfaceModel × List MergedField)) →
      Session → Prop
  | done {session : Session} : SynthesizesEach task path session [] (.ok []) session
  | inside {session after : Session} {tree : FragmentTree} {rest : List FragmentTree}
      {cause : ModelError} :
    Synthesizes task path session tree (.error cause) after →
    SynthesizesEach task path session (tree :: rest) (.error cause) after
  | unmerged {session after : Session} {tree : FragmentTree} {rest : List FragmentTree}
      {model : InterfaceModel} {cause : ModelError} :
    Synthesizes task path session tree (.ok model) after →
    task.treeFields path tree = .error cause →
    SynthesizesEach task path session (tree :: rest) (.error cause) after
  | take {session middle after : Session} {tree : FragmentTree} {rest : List FragmentTree}
      {model : InterfaceModel} {fields : List MergedField}
      {outcome : Except ModelError (List (InterfaceModel × List MergedField))} :
    Synthesizes task path session tree (.ok model) middle →
    task.treeFields path tree = .ok fields → SynthesizesEach task path middle rest outcome after →
    SynthesizesEach task path session (tree :: rest) (outcome.map ((model, fields) :: ·)) after

end

variable {task : Task} {path : ModelPath}

/-- Trees are gone through to the end, if each of them is. -/
theorem synthesizesEach_of_run {trees : List FragmentTree}
    (hTrees : ∀ tree ∈ trees, ∀ {session outcome after},
      (synthesize task path tree).run session = (outcome, after) →
      Synthesizes task path session tree outcome after)
    {session after : Session}
    {outcome : Except ModelError (List (InterfaceModel × List MergedField))}
    (h : (synthesizeEach task path trees).run session = (outcome, after)) :
    SynthesizesEach task path session trees outcome after := by
  induction trees generalizing session outcome with
  | nil =>
      cases h
      exact .done
  | cons tree rest ih =>
      have hRest := @ih fun other hOther => hTrees other (List.mem_cons_of_mem _ hOther)
      rw [synthesizeEach, run_bind] at h
      rcases hRun : (synthesize task path tree).run session with ⟨made, middle⟩
      have hTree := hTrees tree List.mem_cons_self hRun
      rw [hRun] at h
      cases made with
      | error cause =>
          cases h
          exact .inside hTree
      | ok model =>
          dsimp only at h
          rw [run_bind, run_ofExcept] at h
          cases hFields : task.treeFields path tree with
          | error cause =>
              rw [hFields] at h
              cases h
              exact .unmerged hTree hFields
          | ok fields =>
              rw [hFields] at h
              dsimp only at h
              rw [run_bind] at h
              rcases hOthers : (synthesizeEach task path rest).run middle with ⟨others, last⟩
              rw [hOthers] at h
              have hMap : (others.map ((model, fields) :: ·), last) = (outcome, after) := by
                cases others <;> exact h
              cases hMap
              exact .take hTree hFields (hRest hOthers)

/-- The bases of an interface are made to the end. -/
theorem synthesizes_of_run {tree : FragmentTree} {session after : Session}
    {outcome : Except ModelError InterfaceModel}
    (h : (synthesize task path tree).run session = (outcome, after)) :
    Synthesizes task path session tree outcome after := by
  induction tree using FragmentTree.induct generalizing session outcome after with
  | node tree ih =>
      obtain ⟨kind, origin, name, condition, selections, children⟩ := tree
      rw [synthesize, run_get_bind] at h
      split at h
      · rename_i model hKept
        cases h
        exact .kept hKept
      · rename_i hNew
        rw [run_bind] at h
        rcases hRun : (synthesizeEach task path children).run session with ⟨made, middle⟩
        have hEach := synthesizesEach_of_run (fun child hChild => ih child hChild) hRun
        rw [hRun] at h
        cases made with
        | error cause =>
            cases h
            exact .beneath hNew hEach
        | ok bases => exact .made hNew hEach h

end Build

/-- A tree gives way step by step, through finitely many nodes that only pass on. -/
theorem FragmentTree.reflTransGen_hoist (target : String) (tree : FragmentTree) :
    Relation.ReflTransGen (PassesTo target) tree (tree.hoist target) := by
  induction tree using induct with
  | node tree ih =>
      rcases hoist_eq_or_passesTo target tree with hSame | ⟨child, hPasses, hHoist⟩
      · rw [hSame]
      · rw [hHoist]
        exact .head hPasses (ih child hPasses.mem_children)

end ResponseModels
