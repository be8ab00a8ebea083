import ResponseModels.Proofs.Selection.Collecting

/-! Gathering selections without a bound on how deep spreads are followed. It is given by rules,
failures among them. Fragments that spread each other in no cycle can be unfolded to the end, and
collecting within the bound comes to what the rules come to. -/
namespace ResponseModels

open GraphQL

namespace Setting

variable {setting : Setting} {type scope : SchemaType} {path : ModelPath} {expand : Expand}

/-- A fragment selection that opens no branch: its fragment is not defined, or the type of its
condition is not. -/
inductive Refuses (setting : Setting) (path : ModelPath) : Selection → ModelError → Prop
  | undefined {position : Position} {name : String} :
    setting.document.fragment? name = none →
    Refuses setting path (.spread position name)
      (.undefinedFragment name (setting.document.locate position) path)
  | spread {position : Position} {name : String} {fragment : Fragment} {cause : ModelError} :
    setting.document.fragment? name = some fragment →
    setting.conditionType fragment.condition (some fragment.name)
      (setting.document.locate fragment.position) path = .error cause →
    Refuses setting path (.spread position name) cause
  | inline {position : Position} {name : String} {selections : List Selection}
      {cause : ModelError} :
    setting.conditionType name none (setting.document.locate position) path = .error cause →
    Refuses setting path (.inline position (some name) selections) cause

/-- The branch is to be taken: it applies, and none of its origin was taken before. -/
def Enters (setting : Setting) (type : SchemaType) (gathered : Gathered) (branch : Branch) : Prop :=
  setting.schema.applies branch.condition type = true ∧ gathered.hasTaken branch.origin = false

/-- What gathering the selections of a set on `scope` at `type` comes to, one after the other, on
top of what was gathered before. -/
inductive Gathers (setting : Setting) (type : SchemaType) (path : ModelPath) :
    SchemaType → Gathered → List Selection → Except ModelError Gathered → Prop
  | done {scope : SchemaType} {gathered : Gathered} :
    Gathers setting type path scope gathered [] (.ok gathered)
  | field {scope : SchemaType} {gathered : Gathered} {node : FieldNode}
      {fields : List MergedField} {rest : List Selection} {outcome : Except ModelError Gathered} :
    setting.mergeField type path gathered.fields node = .ok fields →
    Gathers setting type path scope { gathered with fields := fields } rest outcome →
    Gathers setting type path scope gathered (node.selection :: rest) outcome
  | unknown {scope : SchemaType} {gathered : Gathered} {node : FieldNode}
      {rest : List Selection} {cause : ModelError} :
    setting.mergeField type path gathered.fields node = .error cause →
    Gathers setting type path scope gathered (node.selection :: rest) (.error cause)
  | refused {scope : SchemaType} {gathered : Gathered} {selection : Selection}
      {rest : List Selection} {cause : ModelError} :
    setting.Refuses path selection cause →
    Gathers setting type path scope gathered (selection :: rest) (.error cause)
  | pass {scope : SchemaType} {gathered : Gathered} {selection : Selection} {branch : Branch}
      {rest : List Selection} {outcome : Except ModelError Gathered} :
    setting.Opens scope selection branch → ¬ setting.Enters type gathered branch →
    Gathers setting type path scope gathered rest outcome →
    Gathers setting type path scope gathered (selection :: rest) outcome
  | inside {scope : SchemaType} {gathered : Gathered} {selection : Selection} {branch : Branch}
      {rest : List Selection} {cause : ModelError} :
    setting.Opens scope selection branch → setting.Enters type gathered branch →
    Gathers setting type path branch.condition ⟨gathered.fields, []⟩ branch.selections
      (.error cause) →
    Gathers setting type path scope gathered (selection :: rest) (.error cause)
  | take {scope : SchemaType} {gathered inner : Gathered} {selection : Selection}
      {branch : Branch} {rest : List Selection} {outcome : Except ModelError Gathered} :
    setting.Opens scope selection branch → setting.Enters type gathered branch →
    Gathers setting type path branch.condition ⟨gathered.fields, []⟩ branch.selections
      (.ok inner) →
    Gathers setting type path scope (gathered.take branch.kind branch.origin branch.name
      branch.condition branch.selections inner) rest outcome →
    Gathers setting type path scope gathered (selection :: rest) outcome

/-- How gathering goes on after a fragment selection, given what its branch comes to. -/
theorem Gathers.branch {gathered : Gathered} {selection : Selection} {branch : Branch}
    {rest : List Selection} {into : Except ModelError Gathered}
    {next : Gathered → Except ModelError Gathered}
    (hOpens : setting.Opens scope selection branch)
    (hInto : setting.Gathers type path branch.condition ⟨gathered.fields, []⟩ branch.selections
      into)
    (hNext : ∀ gathered, setting.Gathers type path scope gathered rest (next gathered)) :
    setting.Gathers type path scope gathered (selection :: rest)
      ((if !setting.schema.applies branch.condition type || gathered.hasTaken branch.origin
        then (pure gathered : Except ModelError Gathered)
        else into >>= fun inner => pure (gathered.take branch.kind branch.origin branch.name
          branch.condition branch.selections inner)) >>= next) := by
  split
  · rename_i hPass
    refine .pass hOpens ?_ (hNext gathered)
    rintro ⟨hApplies, hNew⟩
    simp [hApplies, hNew] at hPass
  · rename_i hTake
    have hEnters : setting.Enters type gathered branch := by
      simpa [Enters, not_or] using hTake
    cases into with
    | error cause => exact .inside hOpens hEnters hInto
    | ok inner => exact .take hOpens hEnters hInto (hNext _)

/-- Fragments up to some rank are unfolded to the end. -/
def Unfolds (setting : Setting) (type : SchemaType) (path : ModelPath) (rank : String → Nat)
    (depth : Nat) (expand : Expand) : Prop :=
  ∀ {name fragment} condition fields, setting.document.fragment? name = some fragment →
    rank name < depth →
    setting.Gathers type path condition ⟨fields, []⟩ fragment.selections
      (expand condition fragment.selections fields)

/-- Selections are gathered to the end, if the fragments that they spread are. The induction is on
the size of the selections, and the first of them is an inline fragment or leaves a smaller rest. -/
theorem Unfolds.gatherAll {rank : String → Nat} {depth : Nat}
    (hExpand : setting.Unfolds type path rank depth expand) (selections : List Selection)
    (hRank : setting.RankedBelow rank depth (Selection.spreadsAll selections))
    (scope : SchemaType) (gathered : Gathered) :
    setting.Gathers type path scope gathered selections
      (Setting.gatherAll setting type path expand scope gathered selections) := by
  induction hSize : Selection.countAll selections using Nat.strongRecOn
    generalizing selections scope gathered with
  | _ size ih =>
      subst hSize
      cases selections with
      | nil =>
          rw [Setting.gatherAll]
          exact .done
      | cons selection rest =>
          have hInside := Selection.countAll_inner_lt_cons selection rest
          have hRest : ∀ gathered, setting.Gathers type path scope gathered rest
              (Setting.gatherAll setting type path expand scope gathered rest) := fun gathered =>
            ih _ (Selection.countAll_lt_cons selection rest) rest
              (fun name hName => hRank name (List.mem_append_right _ hName)) scope gathered rfl
          rw [Setting.gatherAll]
          cases selection with
          | field position label name inner =>
              rw [gather]
              cases hMerge : setting.mergeField type path gathered.fields
                  ⟨position, label, name, inner⟩ with
              | error cause => exact .unknown hMerge
              | ok fields => exact .field hMerge (hRest _)
          | spread position name =>
              rw [gather]
              cases hFragment : setting.document.fragment? name with
              | none => exact .refused (.undefined hFragment)
              | some fragment =>
                  have hBelow := hRank name (List.mem_append_left _ (List.mem_singleton.mpr rfl))
                    (Cycle.mem_keys_of_get? hFragment)
                  dsimp only
                  cases hCondition : setting.conditionType fragment.condition (some fragment.name)
                      (setting.document.locate fragment.position) path with
                  | error cause => exact .refused (.spread hFragment hCondition)
                  | ok condition =>
                      exact .branch (.spread hFragment (conditionType_eq_ok hCondition))
                        (hExpand _ _ hFragment hBelow) hRest
          | inline position written inner =>
              have hInner : ∀ condition, setting.Gathers type path condition ⟨gathered.fields, []⟩
                  inner (Setting.gatherAll setting type path expand condition ⟨gathered.fields, []⟩
                    inner) := fun condition =>
                ih _ hInside inner (fun name hName => hRank name (List.mem_append_left _ hName))
                  condition ⟨gathered.fields, []⟩ rfl
              cases written with
              | none =>
                  rw [gather, pure_bind]
                  exact .branch .inline (hInner _) hRest
              | some name =>
                  rw [gather]
                  cases hCondition : setting.conditionType name none
                      (setting.document.locate position) path with
                  | error cause => exact .refused (.inline hCondition)
                  | ok condition =>
                      exact .branch (.inlineOn (conditionType_eq_ok hCondition)) (hInner _) hRest

theorem Unfolds.gatherWithin {rank : String → Nat}
    (hRanking : Cycle.Ranking setting.document.fragments rank) (depth : Nat)
    (selections : List Selection)
    (hRank : setting.RankedBelow rank depth (Selection.spreadsAll selections))
    (scope : SchemaType) (fields : List MergedField) :
    setting.Gathers type path scope ⟨fields, []⟩ selections
      (setting.gatherWithin type path depth scope selections fields) := by
  induction depth generalizing selections scope fields with
  | zero =>
      have hExpand : setting.Unfolds type path rank 0 fun _ _ fields => .ok ⟨fields, []⟩ :=
        fun _ _ _ hLess => absurd hLess (Nat.not_lt_zero _)
      exact hExpand.gatherAll selections hRank scope ⟨fields, []⟩
  | succ depth ih =>
      have hExpand : setting.Unfolds type path rank (depth + 1)
          (setting.gatherWithin type path depth) := by
        intro name fragment condition fields hFragment hLess
        apply ih
        intro next hNext hDefined
        have hFalls := hRanking.falls hFragment next hNext hDefined
        omega
      exact hExpand.gatherAll selections hRank scope ⟨fields, []⟩

/-- Collecting any selections comes to what gathering them by the rules comes to. -/
theorem exists_gathers_of_collectIn (hDocument : setting.document.Accepted)
    (scope type : SchemaType) (selections : List Selection) (path : ModelPath) :
    ∃ outcome, setting.Gathers type path scope ⟨[], []⟩ selections outcome ∧
      setting.collectIn scope type selections path =
        outcome.map fun gathered => ⟨type, gathered.fields, gathered.fragments, selections⟩ := by
  obtain ⟨rank, hRanking⟩ := hDocument.exists_ranking
  refine ⟨_, Unfolds.gatherWithin hRanking _ selections
    (fun name _ hDefined => hRanking.bounded name hDefined) scope [], ?_⟩
  rw [collectIn]
  cases setting.gatherWithin type path setting.document.fragments.size scope selections [] <;> rfl

end Setting

end ResponseModels
