import ResponseModels.Proofs.Selection.Collecting
import ResponseModels.Proofs.Selection.Flattening

/-! Fields that are rejected as unknown. When a selection set or a tree fails over an unknown
field, the cause names a node that is reached there and that cannot be selected on the type on which
it is looked up. -/
namespace ResponseModels

open GraphQL

def ModelError.isUnknownField : ModelError → Bool
  | .unknownField .. => true
  | _ => false

namespace Setting

variable {setting : Setting} {type scope : SchemaType} {path : ModelPath} {cause : ModelError}

/-- The cause is that the node cannot be selected on the type on which it is met. -/
structure Rejects (setting : Setting) (path : ModelPath) (cause : ModelError)
    (occurrence : Occurrence) : Prop where
  missing : occurrence.field? = none
  named : cause = .unknownField occurrence.node.name occurrence.type.name
    (setting.document.locate occurrence.node.position) (path.child occurrence.key)

theorem mergeField_eq_error {fields : List MergedField} {node : FieldNode}
    (h : setting.mergeField type path fields node = .error cause) :
    setting.Rejects path cause ⟨type, node⟩ := by
  unfold mergeField at h
  split at h
  · rename_i hNone
    cases h
    exact ⟨hNone, rfl⟩
  · dsimp only at h
    split at h <;> cases h

/-- Among the nodes that are reached at the type, the cause names one that the type does not
have. -/
def RejectsIn (setting : Setting) (type : SchemaType) (path : ModelPath) (cause : ModelError)
    (scope : SchemaType) (selections : List Selection) : Prop :=
  ∃ condition node, setting.Reaches type scope selections ⟨condition, node⟩ ∧
    setting.Rejects path cause ⟨type, node⟩

theorem RejectsIn.branch {selection : Selection} {branch : Branch}
    (hOpens : setting.Opens scope selection branch)
    (hApplies : setting.schema.applies branch.condition type = true)
    (h : setting.RejectsIn type path cause branch.condition branch.selections) :
    setting.RejectsIn type path cause scope [selection] := by
  obtain ⟨condition, node, hReaches, hRejects⟩ := h
  exact ⟨condition, node, hOpens.reaches_iff.mpr ⟨hApplies, hReaches⟩, hRejects⟩

theorem RejectsIn.cons {selection : Selection} {rest : List Selection}
    (h : setting.RejectsIn type path cause scope [selection] ∨
      setting.RejectsIn type path cause scope rest) :
    setting.RejectsIn type path cause scope (selection :: rest) := by
  rw [← List.singleton_append]
  rcases h with ⟨condition, node, hReaches, hRejects⟩ | ⟨condition, node, hReaches, hRejects⟩
  · exact ⟨condition, node, reaches_append.mpr (.inl hReaches), hRejects⟩
  · exact ⟨condition, node, reaches_append.mpr (.inr hReaches), hRejects⟩

theorem conditionType_eq_error {name : String} {fragment : Option String} {location : Location}
    (h : setting.conditionType name fragment location path = .error cause) :
    cause.isUnknownField = false := by
  unfold conditionType at h
  split at h
  · cases h
  · cases h
    rfl

/-- A fragment that fails applies, and its own selections fail. -/
theorem error_of_ite {gathered : Gathered} {branch : Branch}
    {into : Except ModelError Gathered} {finish : Gathered → Gathered}
    (h : (if !setting.schema.applies branch.condition type || gathered.hasTaken branch.origin
        then (pure gathered : Except ModelError Gathered)
        else into >>= fun inner => pure (finish inner)) = .error cause) :
    setting.schema.applies branch.condition type = true ∧ into = .error cause := by
  split at h
  · cases h
  · rename_i hTake
    rw [Bool.or_eq_true, Bool.not_eq_true', not_or, Bool.not_eq_false] at hTake
    rcases (Outcome.bind_eq_error_iff _ _ _).mp h with hInto | ⟨_, _, hPure⟩
    · exact ⟨hTake.1, hInto⟩
    · cases hPure

mutual

/-- A selection fails over an unknown field only by a node that is reached through it. -/
theorem rejectsIn_of_gather (hUnknown : cause.isUnknownField = true) {expand : Expand}
    (hExpand : ∀ {condition selections fields}, expand condition selections fields = .error cause →
      setting.RejectsIn type path cause condition selections)
    {scope : SchemaType} {gathered : Gathered} :
    ∀ selection : Selection,
      gather setting type path expand scope gathered selection = .error cause →
      setting.RejectsIn type path cause scope [selection]
  | .field position label name selections, h => by
    rw [gather] at h
    rcases (Outcome.bind_eq_error_iff _ _ _).mp h with hMerge | ⟨_, _, hPure⟩
    · refine ⟨scope, _, ?_, mergeField_eq_error hMerge⟩
      exact .field (List.mem_singleton.mpr rfl)
    · cases hPure
  | .spread position name, h => by
    rw [gather] at h
    split at h
    · cases h
      cases hUnknown
    · rename_i fragment hFragment
      rcases (Outcome.bind_eq_error_iff _ _ _).mp h with hCondition | ⟨condition, hCondition, h⟩
      · rw [conditionType_eq_error hCondition] at hUnknown
        cases hUnknown
      · have hOpens := @Opens.spread _ scope position _ _ _ hFragment
          (conditionType_eq_ok hCondition)
        obtain ⟨hApplies, hInto⟩ := @error_of_ite _ _ _ _ ⟨_, _, _, condition, _⟩ _ _ h
        exact .branch hOpens hApplies (hExpand hInto)
  | .inline position none selections, h => by
    rw [gather, pure_bind] at h
    obtain ⟨hApplies, hInto⟩ := @error_of_ite _ _ _ _ ⟨_, _, _, scope, _⟩ _ _ h
    exact .branch .inline hApplies (rejectsIn_of_gatherAll hUnknown hExpand selections hInto)
  | .inline position (some name) selections, h => by
    rw [gather] at h
    rcases (Outcome.bind_eq_error_iff _ _ _).mp h with hCondition | ⟨condition, hCondition, h⟩
    · rw [conditionType_eq_error hCondition] at hUnknown
      cases hUnknown
    · obtain ⟨hApplies, hInto⟩ := @error_of_ite _ _ _ _ ⟨_, _, _, condition, _⟩ _ _ h
      exact .branch (.inlineOn (conditionType_eq_ok hCondition)) hApplies
        (rejectsIn_of_gatherAll hUnknown hExpand selections hInto)

theorem rejectsIn_of_gatherAll (hUnknown : cause.isUnknownField = true) {expand : Expand}
    (hExpand : ∀ {condition selections fields}, expand condition selections fields = .error cause →
      setting.RejectsIn type path cause condition selections)
    {scope : SchemaType} {gathered : Gathered} :
    ∀ selections : List Selection,
      gatherAll setting type path expand scope gathered selections = .error cause →
      setting.RejectsIn type path cause scope selections
  | [], h => by cases h
  | selection :: rest, h => by
    rw [gatherAll] at h
    rcases (Outcome.bind_eq_error_iff _ _ _).mp h with hFirst | ⟨middle, _, hRest⟩
    · exact .cons (.inl (rejectsIn_of_gather hUnknown hExpand selection hFirst))
    · exact .cons (.inr (rejectsIn_of_gatherAll hUnknown hExpand rest hRest))

end

/-- Collecting fails over an unknown field only by a node that is reached. Where spreads are no
longer followed nothing fails, so the bound on their depth plays no part. -/
theorem rejectsIn_of_collectIn (hUnknown : cause.isUnknownField = true)
    {selections : List Selection}
    (h : setting.collectIn scope type selections path = .error cause) :
    setting.RejectsIn type path cause scope selections := by
  have hWithin : ∀ depth {scope selections fields},
      setting.gatherWithin type path depth scope selections fields = .error cause →
      setting.RejectsIn type path cause scope selections := by
    intro depth
    induction depth with
    | zero =>
        intro scope selections fields hError
        refine rejectsIn_of_gatherAll hUnknown (fun hExpand => ?_) selections hError
        cases hExpand
    | succ depth ih =>
        intro scope selections fields hError
        exact rejectsIn_of_gatherAll hUnknown ih selections hError
  rw [collectIn] at h
  rcases (Outcome.bind_eq_error_iff _ _ _).mp h with hGather | ⟨_, _, hPure⟩
  · exact hWithin _ hGather
  · cases hPure

/-- Selections are flattened into an error only by a field node among them or by a subtree. -/
theorem flattenSelections_eq_error {condition : SchemaType} {children : List FragmentTree}
    {selections : List Selection} {visited : List Nat} {fields : List MergedField}
    (h : setting.flattenSelections path condition (setting.flattenEach path children) visited fields
      selections = .error cause) :
    (∃ node : FieldNode, node.selection ∈ selections ∧
        setting.Rejects path cause ⟨condition, node⟩) ∨
      ∃ child ∈ children, ∃ before, setting.flattenInto path child before = .error cause := by
  induction selections generalizing visited fields with
  | nil => cases h
  | cons selection rest ih =>
      have hLater : ∀ {visited fields}, setting.flattenSelections path condition
          (setting.flattenEach path children) visited fields rest = .error cause →
          (∃ node : FieldNode, node.selection ∈ selection :: rest ∧
              setting.Rejects path cause ⟨condition, node⟩) ∨
            ∃ child ∈ children, ∃ before,
              setting.flattenInto path child before = .error cause := by
        intro visited fields hRest
        rcases ih hRest with ⟨node, hNode, hRejects⟩ | hChild
        · exact .inl ⟨node, List.mem_cons_of_mem _ hNode, hRejects⟩
        · exact .inr hChild
      by_cases hField : ∃ node : FieldNode, selection = node.selection
      · obtain ⟨node, rfl⟩ := hField
        unfold FieldNode.selection at h
        rw [flattenSelections] at h
        rcases (Outcome.bind_eq_error_iff _ _ _).mp h with hMerge | ⟨middle, _, hRest⟩
        · exact .inl ⟨node, List.mem_cons_self, mergeField_eq_error hMerge⟩
        · exact hLater hRest
      · rw [flattenSelections_fragment fun node hSame => hField ⟨node, hSame⟩] at h
        split at h
        · exact hLater h
        · split at h
          · exact hLater h
          · split at h
            · exact hLater h
            · rename_i child hChild
              rcases (Outcome.bind_eq_error_iff _ _ _).mp h with hInto | ⟨middle, _, hRest⟩
              · exact .inr ⟨child, List.mem_of_getElem? hChild, fields, hInto⟩
              · exact hLater hRest

/-- A tree has no fields only by a node that it holds. -/
theorem rejects_of_treeFields {tree : FragmentTree}
    (h : setting.treeFields path tree = .error cause) :
    ∃ occurrence, tree.Holds occurrence ∧ setting.Rejects path cause occurrence := by
  unfold treeFields at h
  generalize ([] : List MergedField) = fields at h
  induction tree using FragmentTree.induct generalizing fields with
  | node tree ih =>
      rw [← tree.eta, flattenInto] at h
      rcases flattenSelections_eq_error h with ⟨node, hNode, hRejects⟩ | ⟨child, hChild, before, hInto⟩
      · exact ⟨⟨tree.condition, node⟩, FragmentTree.holds_iff.mpr (.inl ⟨rfl, hNode⟩), hRejects⟩
      · obtain ⟨occurrence, hHolds, hRejects⟩ := ih child hChild before hInto
        exact ⟨occurrence, FragmentTree.holds_iff.mpr (.inr ⟨child, hChild, hHolds⟩), hRejects⟩

end Setting

end ResponseModels
