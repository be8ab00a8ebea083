import ResponseModels.Selection.Flatten
import ResponseModels.Proofs.Selection.Growth

/-! Flattening a tree merges the field nodes that its selections lead to. Each selection is
followed into the first subtree of its fragment, so a second subtree of the same fragment, such
as one that came with a base, is left out. In a grown tree there is no second one, and all field
nodes that the tree holds are merged. -/
namespace ResponseModels

open GraphQL

namespace Setting

variable {setting : Setting} {path : ModelPath} {tree child : FragmentTree}
  {occurrence : Occurrence}

/-- Does the selection stand for a fragment of this origin? -/
def leadsTo (setting : Setting) : Selection → Origin → Bool
  | .spread _ fragment, .namedFragment _ name => name == fragment
  | .inline position _ _, .inlineFragment location _ =>
    location == setting.document.locate position
  | _, _ => false

/-- A field node that is merged when the tree is flattened. -/
inductive Merges (setting : Setting) : FragmentTree → Occurrence → Prop
  | own {tree : FragmentTree} {occurrence : Occurrence} :
    tree.Selects occurrence → Merges setting tree occurrence
  | inner {tree child : FragmentTree} {selection : Selection} {occurrence : Occurrence} :
    selection ∈ tree.selections →
    tree.children.find? (setting.leadsTo selection ·.origin) = some child →
    Merges setting child occurrence → Merges setting tree occurrence

theorem Merges.holds (h : setting.Merges tree occurrence) : tree.Holds occurrence := by
  induction h with
  | own hSelects => exact FragmentTree.holds_iff.mpr (.inl hSelects)
  | inner _ hChild _ ih =>
      exact FragmentTree.holds_iff.mpr (.inr ⟨_, List.mem_of_find?_eq_some hChild, ih⟩)

theorem flattenEach_eq_map (children : List FragmentTree) :
    setting.flattenEach path children =
      children.map fun child => (child.origin, setting.flattenInto path child) := by
  induction children with
  | nil => rfl
  | cons child rest ih => rw [flattenEach, List.map_cons, ih]

theorem subtreeIndex?_eq (children : List FragmentTree) (selection : Selection) :
    setting.subtreeIndex? (setting.flattenEach path children) selection =
      children.findIdx? (setting.leadsTo selection ·.origin) := by
  rw [flattenEach_eq_map]
  cases selection with
  | field =>
      symm
      rw [subtreeIndex?, List.findIdx?_eq_none_iff]
      intro child _
      rfl
  | spread position fragment =>
      rw [subtreeIndex?, List.findIdx?_map]
      congr 1
      funext child
      simp only [Function.comp_apply]
      cases child.origin <;> rfl
  | inline position condition selections =>
      rw [subtreeIndex?, List.findIdx?_map]
      congr 1
      funext child
      simp only [Function.comp_apply]
      cases child.origin <;> rfl

theorem find?_eq_getElem? {α : Type} {items : List α} {test : α → Bool} {index : Nat}
    (h : items.findIdx? test = some index) : items.find? test = items[index]? := by
  obtain ⟨hIndex, hTest, hBefore⟩ := List.findIdx?_eq_some_iff_getElem.mp h
  rw [List.getElem?_eq_getElem hIndex, List.find?_eq_some_iff_getElem]
  exact ⟨hTest, index, hIndex, rfl, fun j hj => by simpa using hBefore j hj⟩

/-- The field nodes among selections on a condition, and those of the subtrees that the
selections lead to, unless a subtree was visited before. -/
def LedTo (setting : Setting) (condition : SchemaType) (children : List FragmentTree)
    (visited : List Nat) (selections : List Selection) (occurrence : Occurrence) : Prop :=
  (occurrence.type = condition ∧ occurrence.node.selection ∈ selections) ∨
    ∃ selection ∈ selections, ∃ index,
      children.findIdx? (setting.leadsTo selection ·.origin) = some index ∧ index ∉ visited ∧
        ∃ child, children[index]? = some child ∧ setting.Merges child occurrence

theorem ledTo_cons {condition : SchemaType} {children : List FragmentTree} {visited : List Nat}
    {selection : Selection} {rest : List Selection} :
    setting.LedTo condition children visited (selection :: rest) occurrence ↔
      setting.LedTo condition children visited [selection] occurrence ∨
        setting.LedTo condition children visited rest occurrence := by
  constructor
  · rintro (⟨hType, hMem⟩ | ⟨other, hOther, hRest⟩)
    · rcases List.mem_cons.mp hMem with hSame | hMem
      · exact .inl (.inl ⟨hType, List.mem_singleton.mpr hSame⟩)
      · exact .inr (.inl ⟨hType, hMem⟩)
    · rcases List.mem_cons.mp hOther with hSame | hMem
      · exact .inl (.inr ⟨other, List.mem_singleton.mpr hSame, hRest⟩)
      · exact .inr (.inr ⟨other, hMem, hRest⟩)
  · rintro ((⟨hType, hMem⟩ | ⟨other, hOther, hRest⟩) | (⟨hType, hMem⟩ | ⟨other, hOther, hRest⟩))
    · exact .inl ⟨hType, List.mem_cons.mpr (.inl (List.mem_singleton.mp hMem))⟩
    · exact .inr ⟨other, List.mem_cons.mpr (.inl (List.mem_singleton.mp hOther)), hRest⟩
    · exact .inl ⟨hType, List.mem_cons_of_mem _ hMem⟩
    · exact .inr ⟨other, List.mem_cons_of_mem _ hOther, hRest⟩

/-- A field node among the selections is merged before the rest. -/
theorem ledTo_field {condition : SchemaType} {children : List FragmentTree} {visited : List Nat}
    {node : FieldNode} :
    setting.LedTo condition children visited [node.selection] occurrence ↔
      occurrence = ⟨condition, node⟩ := by
  constructor
  · rintro (⟨hType, hNode⟩ | ⟨other, hOther, index, hIndex, _⟩)
    · obtain ⟨on, other⟩ := occurrence
      cases hType
      cases FieldNode.selection_inj (List.mem_singleton.mp hNode)
      rfl
    · obtain ⟨hBound, hLeads, _⟩ := List.findIdx?_eq_some_iff_getElem.mp hIndex
      rw [List.mem_singleton.mp hOther] at hLeads
      cases hLeads
  · rintro rfl
    exact .inl ⟨rfl, List.mem_singleton.mpr rfl⟩

/-- A fragment selection leads to its subtree, if it has one not yet visited. -/
theorem ledTo_fragment {condition : SchemaType} {children : List FragmentTree}
    {visited : List Nat} {selection : Selection}
    (hNoField : ∀ node : FieldNode, selection ≠ node.selection) :
    setting.LedTo condition children visited [selection] occurrence ↔ ∃ index,
      children.findIdx? (setting.leadsTo selection ·.origin) = some index ∧
        index ∉ visited ∧ ∃ child, children[index]? = some child ∧
          setting.Merges child occurrence := by
  constructor
  · rintro (⟨_, hNode⟩ | ⟨other, hOther, hRest⟩)
    · exact absurd (List.mem_singleton.mp hNode).symm (hNoField _)
    · rwa [List.mem_singleton.mp hOther] at hRest
  · intro hRest
    exact .inr ⟨selection, List.mem_singleton.mpr rfl, hRest⟩

/-- A subtree may count as visited once its own nodes are merged. -/
theorem merges_or_ledTo_visited {condition : SchemaType} {children : List FragmentTree}
    {visited : List Nat} {rest : List Selection} {index : Nat}
    (hChild : children[index]? = some child) (hUnseen : index ∉ visited) :
    (setting.Merges child occurrence ∨
        setting.LedTo condition children (index :: visited) rest occurrence) ↔
      setting.Merges child occurrence ∨
        setting.LedTo condition children visited rest occurrence := by
  constructor
  · rintro (hMerges | (hDirect | ⟨other, hOther, next, hNext, hUnseenNext, hRest⟩))
    · exact .inl hMerges
    · exact .inr (.inl hDirect)
    · exact .inr (.inr ⟨other, hOther, next, hNext,
        fun hSeen => hUnseenNext (List.mem_cons_of_mem _ hSeen), hRest⟩)
  · rintro (hMerges | (hDirect | ⟨other, hOther, next, hNext, hUnseenNext, found, hFound, hMerges⟩))
    · exact .inl hMerges
    · exact .inr (.inl hDirect)
    · by_cases hSame : next = index
      · subst hSame
        rw [hChild] at hFound
        cases hFound
        exact .inl hMerges
      · refine .inr (.inr ⟨other, hOther, next, hNext, ?_, found, hFound, hMerges⟩)
        simpa [hSame] using hUnseenNext

/-- What becomes of a fragment selection: its subtree is merged, unless that has been visited. -/
theorem flattenSelections_fragment {condition : SchemaType} {children : List FragmentTree}
    {selection : Selection} (hNoField : ∀ node : FieldNode, selection ≠ node.selection)
    {path : ModelPath} {visited : List Nat} {fields : List MergedField} {rest : List Selection} :
    setting.flattenSelections path condition (setting.flattenEach path children) visited fields
        (selection :: rest) =
      match children.findIdx? (setting.leadsTo selection ·.origin) with
      | none => setting.flattenSelections path condition (setting.flattenEach path children)
          visited fields rest
      | some index =>
        if index ∈ visited then setting.flattenSelections path condition
          (setting.flattenEach path children) visited fields rest
        else
          match children[index]? with
          | none => setting.flattenSelections path condition (setting.flattenEach path children)
              visited fields rest
          | some child => setting.flattenInto path child fields >>= fun fields =>
              setting.flattenSelections path condition (setting.flattenEach path children)
                (index :: visited) fields rest := by
  rw [flattenSelections, subtreeIndex?_eq]
  · cases children.findIdx? (setting.leadsTo selection ·.origin) with
    | none => rfl
    | some index =>
        dsimp only
        by_cases hSeen : index ∈ visited
        · rw [if_pos hSeen, if_pos (List.contains_iff_mem.mpr hSeen)]
        · rw [if_neg hSeen, if_neg (fun hIn => hSeen (List.contains_iff_mem.mp hIn)),
            flattenEach_eq_map, List.getElem?_map]
          cases children[index]? <;> rfl
  · exact fun position label name inner => hNoField ⟨position, label, name, inner⟩

/-- The field nodes among selections on a condition, in order, with those of each subtree where a
selection leads to it for the first time. -/
def metAmong (setting : Setting) (condition : SchemaType)
    (subtrees : List (Origin × List Occurrence)) :
    List Nat → List Selection → List Occurrence
  | _, [] => []
  | visited, .field position label name selections :: rest =>
    ⟨condition, position, label, name, selections⟩ ::
      setting.metAmong condition subtrees visited rest
  | visited, selection :: rest =>
    match subtrees.findIdx? (setting.leadsTo selection ·.1) with
    | none => setting.metAmong condition subtrees visited rest
    | some index =>
      if index ∈ visited then setting.metAmong condition subtrees visited rest
      else
        match subtrees[index]? with
        | none => setting.metAmong condition subtrees visited rest
        | some (_, met) => met ++ setting.metAmong condition subtrees (index :: visited) rest

mutual

/-- The field nodes that are met when a tree is flattened, in order. -/
def met (setting : Setting) : FragmentTree → List Occurrence
  | .node _ _ _ condition selections children =>
    setting.metAmong condition (metEach setting children) [] selections

/-- Each subtree's origin with the field nodes met in it. -/
def metEach (setting : Setting) : List FragmentTree → List (Origin × List Occurrence)
  | [] => []
  | tree :: rest => (tree.origin, met setting tree) :: metEach setting rest

end

theorem metEach_eq_map (children : List FragmentTree) :
    setting.metEach children = children.map fun child => (child.origin, setting.met child) := by
  induction children with
  | nil => rfl
  | cons child rest ih => rw [metEach, List.map_cons, ih]

theorem met_eq (tree : FragmentTree) : setting.met tree =
    setting.metAmong tree.condition (setting.metEach tree.children) [] tree.selections := by
  cases tree
  rw [met]
  rfl

theorem metAmong_field {condition : SchemaType} {subtrees : List (Origin × List Occurrence)}
    {visited : List Nat} (node : FieldNode) (rest : List Selection) :
    setting.metAmong condition subtrees visited (node.selection :: rest) =
      ⟨condition, node⟩ :: setting.metAmong condition subtrees visited rest := by
  rw [FieldNode.selection, metAmong]

/-- What is met by a fragment selection: its subtree, unless that has been visited. -/
theorem metAmong_fragment {condition : SchemaType} {children : List FragmentTree}
    {selection : Selection} (hNoField : ∀ node : FieldNode, selection ≠ node.selection)
    {visited : List Nat} {rest : List Selection} :
    setting.metAmong condition (setting.metEach children) visited (selection :: rest) =
      match children.findIdx? (setting.leadsTo selection ·.origin) with
      | none => setting.metAmong condition (setting.metEach children) visited rest
      | some index =>
        if index ∈ visited then setting.metAmong condition (setting.metEach children) visited rest
        else
          match children[index]? with
          | none => setting.metAmong condition (setting.metEach children) visited rest
          | some child => setting.met child ++
              setting.metAmong condition (setting.metEach children) (index :: visited) rest := by
  rw [metAmong]
  · have hIndex : (setting.metEach children).findIdx? (setting.leadsTo selection ·.1) =
        children.findIdx? (setting.leadsTo selection ·.origin) := by
      rw [metEach_eq_map, List.findIdx?_map]
      rfl
    have hItem (index : Nat) : (setting.metEach children)[index]? =
        children[index]?.map fun child => (child.origin, setting.met child) := by
      rw [metEach_eq_map, List.getElem?_map]
    simp only [hIndex, hItem]
    cases children.findIdx? (setting.leadsTo selection ·.origin) with
    | none => rfl
    | some index =>
        dsimp only
        cases children[index]? <;> rfl
  · exact fun position label name inner => hNoField ⟨position, label, name, inner⟩

/-- Either a selection is a field node, or it stands for a fragment. -/
theorem field_or_fragment (selection : Selection) :
    (∃ node : FieldNode, selection = node.selection) ∨
      ∀ node : FieldNode, selection ≠ node.selection := by
  by_cases hField : ∃ node : FieldNode, selection = node.selection
  · exact .inl hField
  · exact .inr fun node hSame => hField ⟨node, hSame⟩

/-- The nodes are met that the selections lead to. -/
theorem mem_metAmong {condition : SchemaType} {children : List FragmentTree}
    (hEach : ∀ child ∈ children, ∀ occurrence,
      occurrence ∈ setting.met child ↔ setting.Merges child occurrence)
    (selections : List Selection) (visited : List Nat) :
    occurrence ∈ setting.metAmong condition (setting.metEach children) visited selections ↔
      setting.LedTo condition children visited selections occurrence := by
  induction selections generalizing visited with
  | nil => simp [metAmong, LedTo]
  | cons selection rest ih =>
      rcases field_or_fragment selection with ⟨node, rfl⟩ | hNoField
      · rw [metAmong_field, List.mem_cons, ih, ledTo_cons, ledTo_field]
      · rw [metAmong_fragment hNoField, ledTo_cons, ledTo_fragment hNoField]
        cases hIndex : children.findIdx? (setting.leadsTo selection ·.origin) with
        | none => simp [ih]
        | some index =>
            by_cases hSeen : index ∈ visited
            · simp [hSeen, ih]
            · obtain ⟨hBound, _, _⟩ := List.findIdx?_eq_some_iff_getElem.mp hIndex
              have hChild := List.getElem?_eq_getElem hBound
              simp only [hSeen, if_false, hChild, List.mem_append,
                hEach _ (List.getElem_mem hBound), ih, merges_or_ledTo_visited hChild hSeen]
              simp [hSeen, hChild]

/-- Selections are flattened by merging what is met among them. -/
theorem flattenSelections_eq {condition : SchemaType} {children : List FragmentTree}
    (hEach : ∀ child ∈ children, ∀ fields,
      setting.flattenInto path child fields = setting.mergeAll path fields (setting.met child))
    (selections : List Selection) (visited : List Nat) (fields : List MergedField) :
    setting.flattenSelections path condition (setting.flattenEach path children) visited fields
        selections =
      setting.mergeAll path fields
        (setting.metAmong condition (setting.metEach children) visited selections) := by
  induction selections generalizing visited fields with
  | nil => rfl
  | cons selection rest ih =>
      rcases field_or_fragment selection with ⟨node, rfl⟩ | hNoField
      · rw [metAmong_field, mergeAll_cons, FieldNode.selection, flattenSelections]
        simp only [ih]
      · rw [flattenSelections_fragment hNoField, metAmong_fragment hNoField]
        cases hIndex : children.findIdx? (setting.leadsTo selection ·.origin) with
        | none => exact ih visited fields
        | some index =>
            by_cases hSeen : index ∈ visited
            · simp only [hSeen, if_true, ih]
            · obtain ⟨hBound, _, _⟩ := List.findIdx?_eq_some_iff_getElem.mp hIndex
              simp only [hSeen, if_false, List.getElem?_eq_getElem hBound,
                hEach _ (List.getElem_mem hBound), mergeAll_append, ih]

theorem ledTo_iff_merges :
    setting.LedTo tree.condition tree.children [] tree.selections occurrence ↔
      setting.Merges tree occurrence := by
  constructor
  · rintro (hSelects | ⟨selection, hSelection, index, hIndex, _, child, hChild, hMerges⟩)
    · exact .own hSelects
    · exact .inner hSelection ((find?_eq_getElem? hIndex).trans hChild) hMerges
  · intro h
    cases h with
    | own hSelects => exact .inl hSelects
    | @inner _ child selection _ hSelection hChild hMerges =>
        have hSome : (tree.children.findIdx? (setting.leadsTo selection ·.origin)).isSome := by
          rw [List.findIdx?_isSome, List.any_eq_true]
          have hLeads := List.find?_some hChild
          exact ⟨child, List.mem_of_find?_eq_some hChild, hLeads⟩
        obtain ⟨index, hIndex⟩ := Option.isSome_iff_exists.mp hSome
        refine .inr ⟨selection, hSelection, index, hIndex, List.not_mem_nil, child, ?_, hMerges⟩
        rw [← find?_eq_getElem? hIndex, hChild]

theorem mem_met : occurrence ∈ setting.met tree ↔ setting.Merges tree occurrence := by
  induction tree using FragmentTree.induct generalizing occurrence with
  | node tree ih =>
      rw [met_eq, mem_metAmong (fun child hChild _ => ih child hChild), ledTo_iff_merges]

/-- A tree is flattened by merging what is met in it. -/
theorem flattenInto_eq (tree : FragmentTree) (fields : List MergedField) :
    setting.flattenInto path tree fields =
      setting.mergeAll path fields (setting.met tree) := by
  induction tree using FragmentTree.induct generalizing fields with
  | node tree ih =>
      rw [met_eq, ← flattenSelections_eq ih]
      cases tree
      rw [flattenInto]
      rfl

theorem treeFields_eq (path : ModelPath) (tree : FragmentTree) :
    setting.treeFields path tree = setting.mergeAll path [] (setting.met tree) :=
  flattenInto_eq tree []

/-- The fields of a tree are merged from the field nodes that are met in it. -/
theorem merged_met {fields : List MergedField} (h : setting.treeFields path tree = .ok fields) :
    setting.Merged path (setting.met tree) fields := by
  rw [treeFields_eq] at h
  exact merged_of_mergeAll h

/-- The fields of a tree are merged from the field nodes that its selections lead to. -/
theorem merged_of_treeFields {fields : List MergedField}
    (h : setting.treeFields path tree = .ok fields) :
    ∃ occurrences, setting.Merged path occurrences fields ∧
      ∀ occurrence, occurrence ∈ occurrences ↔ setting.Merges tree occurrence :=
  ⟨setting.met tree, merged_met h, fun _ => mem_met⟩

/-- A tree has the same fields at any path. -/
theorem treeFields_movedTo {fields : List MergedField}
    (h : setting.treeFields path tree = .ok fields) (elsewhere : ModelPath) :
    setting.treeFields elsewhere tree = .ok (fields.map (.movedTo elsewhere)) := by
  rw [treeFields_eq] at h ⊢
  exact mergeAll_movedTo h elsewhere

/-- The path at which the fields of a tree are merged has no part in their nodes. -/
theorem exists_merged_at {fields others : List MergedField} {merged : MergedField}
    {elsewhere : ModelPath} (h : setting.treeFields path tree = .ok fields)
    (hMerged : merged ∈ fields) (hOthers : setting.treeFields elsewhere tree = .ok others) :
    ∃ other ∈ others, other.responseKey = merged.responseKey ∧
      other.locations = merged.locations := by
  rw [treeFields_movedTo h elsewhere] at hOthers
  cases hOthers
  exact ⟨_, List.mem_map_of_mem hMerged, rfl, rfl⟩

/-- A field of a tree is found by its response key. -/
theorem find?_responseKey {fields : List MergedField} {merged : MergedField}
    (h : setting.treeFields path tree = .ok fields) (hMerged : merged ∈ fields) :
    fields.find? (·.responseKey == merged.responseKey) = some merged := by
  have hMerge := merged_met h
  cases hFound : fields.find? (·.responseKey == merged.responseKey) with
  | none =>
      have hNone := List.find?_eq_none.mp hFound merged hMerged
      exact absurd (beq_self_eq_true _) hNone
  | some found =>
      have hKey := List.find?_some hFound
      rw [List.inj_on_of_nodup_map hMerge.nodup (List.mem_of_find?_eq_some hFound) hMerged
        (eq_of_beq hKey)]

/-- A tree exposes the response keys of its fields. -/
theorem exposes_of_treeFields {fields : List MergedField} {merged : MergedField}
    (h : setting.treeFields path tree = .ok fields) (hMerged : merged ∈ fields) :
    tree.Exposes merged.responseKey := by
  obtain ⟨_, hMerge, hMerges⟩ := merged_of_treeFields h
  obtain ⟨first, hFirst, hKey, _⟩ := (hMerge.each merged hMerged).head_node
  exact ⟨first, ((hMerges first).mp hFirst).holds, hKey⟩

variable {type scope : SchemaType} {selections : List Selection} {trees : List FragmentTree}

/-- A selection leads to no branch but its own, among those that the same selection set opens. -/
theorem Opens.branch_eq_of_leadsTo (hDocument : setting.document.Accepted)
    {selection other : Selection} {branch branch' : Branch}
    (h : setting.Opens scope selection branch) (h' : setting.Opens scope other branch')
    (hApart : ∀ {position written inner written' inner'},
      selection = .inline position written inner → other = .inline position written' inner' →
        selection = other)
    (hLeads : setting.leadsTo selection branch'.origin = true) : branch' = branch := by
  cases selection with
  | field => cases h
  | spread position name =>
      cases h' with
      | spread hFragment' hCondition' =>
          cases h with
          | spread hFragment hCondition =>
              have hName : _ = _ := eq_of_beq hLeads
              rw [hDocument.fragment?_name hFragment'] at hName
              subst hName
              rw [hFragment] at hFragment'
              cases hFragment'
              rw [hCondition] at hCondition'
              cases hCondition'
              rfl
      | inlineOn => cases hLeads
      | inline => cases hLeads
  | inline position written inner =>
      obtain ⟨written', inner', rfl⟩ :
          ∃ written' inner', other = .inline position written' inner' := by
        cases h' with
        | spread => cases hLeads
        | inlineOn => exact ⟨_, _, by rw [Document.locate_inj (eq_of_beq hLeads)]⟩
        | inline => exact ⟨_, _, by rw [Document.locate_inj (eq_of_beq hLeads)]⟩
      rw [← hApart rfl rfl] at h'
      exact h.unique h'

theorem Opens.leadsTo (hDocument : setting.document.Accepted) {selection : Selection}
    {branch : Branch} (h : setting.Opens scope selection branch) :
    setting.leadsTo selection branch.origin = true := by
  cases h with
  | spread hFragment => simpa [Setting.leadsTo] using hDocument.fragment?_name hFragment
  | inlineOn => simp [Setting.leadsTo]
  | inline => simp [Setting.leadsTo]

/-- A grown tree is led to from the selections that it was grown from, whatever trees follow. -/
theorem Grown.find?_leadsTo (hSetting : setting.Admissible)
    (h : setting.Grown type scope selections trees)
    (hNodes : selections ⊆ setting.document.nodes) (hTree : tree ∈ trees)
    (others : List FragmentTree) : ∃ selection ∈ selections,
      (trees ++ others).find? (setting.leadsTo selection ·.origin) = some tree := by
  obtain ⟨selection, hSelection, hOpens, _⟩ := h.opened hTree
  refine ⟨selection, hSelection, ?_⟩
  have hFirst : trees.find? (setting.leadsTo selection ·.origin) = some tree := by
    cases hFound : trees.find? (setting.leadsTo selection ·.origin) with
    | none =>
        have hNone := List.find?_eq_none.mp hFound tree hTree
        exact absurd (hOpens.leadsTo hSetting.document) hNone
    | some found =>
        have hMem := List.mem_of_find?_eq_some hFound
        have hLeads := List.find?_some hFound
        obtain ⟨opener, hOpener, hOpened, _⟩ := h.opened hMem
        have hBranch := hOpens.branch_eq_of_leadsTo hSetting.document hOpened
          (fun hInline hInline' => hSetting.positions.node_eq (hNodes hSelection)
            (hNodes hOpener) (by rw [hInline, hInline', Selection.position, Selection.position]))
          hLeads
        rw [List.inj_on_of_nodup_map h.distinct hMem hTree (congrArg Branch.origin hBranch)]
  rw [List.find?_append, hFirst, Option.some_or]

/-- All that a grown tree holds is merged. -/
theorem Grown.merges_of_holds (hSetting : setting.Admissible)
    (h : setting.Grown type scope selections trees) (hScope : setting.Knows scope)
    (hNodes : selections ⊆ setting.document.nodes) (hTree : tree ∈ trees)
    (hHolds : tree.Holds occurrence) : setting.Merges tree occurrence := by
  induction tree using FragmentTree.induct generalizing scope selections trees with
  | node tree ih =>
      rcases FragmentTree.holds_iff.mp hHolds with hSelects | ⟨child, hChild, hInner⟩
      · exact .own hSelects
      · obtain ⟨opener, hOpener, hOpens, _⟩ := h.opened hTree
        have hInside := hOpens.subset_nodes (hNodes hOpener)
        obtain ⟨selection, hSelection, hFound⟩ :=
          (h.inner hTree).find?_leadsTo hSetting hInside hChild []
        rw [List.append_nil] at hFound
        exact .inner hSelection hFound (ih child hChild (h.inner hTree)
          (hOpens.knows hSetting hScope) hInside hChild hInner)

end Setting

end ResponseModels
