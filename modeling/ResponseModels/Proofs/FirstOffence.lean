import ResponseModels.Proofs.Coverage
import ResponseModels.Proofs.Selection.Rejection
import ResponseModels.Proofs.Selection.Walking

/-! Where collecting fails. A walk over the selections comes to every item of a set in order, and
goes on inside of a fragment that applies and that was not entered in the same set before. An item
is an offence or not by itself, whatever was merged; collecting fails exactly if the walk comes
upon an offence, and the first one is the cause. -/
namespace ResponseModels

open GraphQL

/-- Is there a field of this name to select on the type? On a union there is `__typename` only. -/
def SchemaType.selects (type : SchemaType) (fieldName : String) : Bool :=
  match type with
  | .object type => type.fields.keys.contains fieldName
  | .interface type => type.fields.keys.contains fieldName
  | .union _ => fieldName == "__typename"
  | _ => false

theorem SchemaType.isSome_selectable? (type : SchemaType) (fieldName : String) :
    (type.selectable? fieldName).isSome = type.selects fieldName := by
  have hFields : ∀ fields : OrderedMap Field,
      (fields.get? fieldName).isSome = fields.keys.contains fieldName := by
    intro fields
    rw [Bool.eq_iff_iff, List.contains_iff_mem, ← OrderedMap.contains_eq_true_iff]
    rfl
  cases type with
  | object type => exact hFields type.fields
  | interface type => exact hFields type.fields
  | union type =>
      by_cases hTypename : fieldName = "__typename" <;>
        simp [selectable?, selects, hTypename]
  | _ => rfl

/-- The selections enter the same fragment: they spread it by its name, or they are the same inline
fragment. -/
inductive GraphQL.Selection.SameFragment : Selection → Selection → Prop
  | spread {position position' : Position} {name : String} :
    SameFragment (.spread position name) (.spread position' name)
  | inline {position : Position} {condition : Option String} {selections : List Selection} :
    SameFragment (.inline position condition selections) (.inline position condition selections)

namespace Setting

variable {setting : Setting} {type scope : SchemaType} {path : ModelPath}
  {taken selections items : List Selection}

/-- What is wrong with an item of a selection set that is collected at `type`, apart from what
stands inside of it. -/
def offence? (setting : Setting) (type : SchemaType) (path : ModelPath) :
    Selection → Option ModelError
  | .field position label name _ =>
    if type.selects name then none
    else some (.unknownField name type.name (setting.document.locate position)
      (path.child (label.getD name)))
  | .spread position name =>
    match setting.document.fragment? name with
    | none => some (.undefinedFragment name (setting.document.locate position) path)
    | some fragment =>
      if (setting.schema.type? fragment.condition).isSome then none
      else some (.undefinedCondition fragment.condition (some fragment.name)
        (setting.document.locate fragment.position) path)
  | .inline position (some condition) _ =>
    if (setting.schema.type? condition).isSome then none
    else some (.undefinedCondition condition none (setting.document.locate position) path)
  | .inline _ none _ => none

/-- The selection leads the walk at `type` into a branch: its condition is a type, which applies,
and none of the selections entered before in the same set enters the same fragment. -/
structure Descends (setting : Setting) (type scope : SchemaType) (taken : List Selection)
    (selection : Selection) (branch : Branch) : Prop where
  opens : setting.Opens scope selection branch
  applies : setting.schema.applies branch.condition type = true
  fresh : ∀ other ∈ taken, ¬ selection.SameFragment other

/-- The items that a walk at `type` comes upon in the selections of a set on `scope`, after those
of the set that were entered before. -/
inductive Visits (setting : Setting) (type : SchemaType) :
    SchemaType → List Selection → List Selection → List Selection → Prop
  | done {scope : SchemaType} {taken : List Selection} : Visits setting type scope taken [] []
  | stay {scope : SchemaType} {taken rest items : List Selection} {selection : Selection} :
    (∀ branch, ¬ setting.Descends type scope taken selection branch) →
    Visits setting type scope taken rest items →
    Visits setting type scope taken (selection :: rest) (selection :: items)
  | descend {scope : SchemaType} {taken rest inner items : List Selection}
      {selection : Selection} {branch : Branch} :
    setting.Descends type scope taken selection branch →
    Visits setting type branch.condition [] branch.selections inner →
    Visits setting type scope (taken ++ [selection]) rest items →
    Visits setting type scope taken (selection :: rest) (selection :: (inner ++ items))

/-- Selections of an accepted document can be followed to the end. The induction is on the ranks of
the fragments that they spread, and for one rank on their size. -/
theorem selections_induct (hDocument : setting.document.Accepted) {P : List Selection → Prop}
    (nil : P [])
    (cons : ∀ selection rest, P rest →
      (∀ scope branch, setting.Opens scope selection branch → P branch.selections) →
      P (selection :: rest))
    (selections : List Selection) : P selections := by
  obtain ⟨rank, hRanking⟩ := hDocument.exists_ranking
  have hBelow : ∀ bound selections,
      setting.RankedBelow rank bound (Selection.spreadsAll selections) → P selections := by
    intro bound
    induction bound using Nat.strongRecOn with
    | _ bound ihBound =>
        intro selections
        induction hSize : Selection.countAll selections using Nat.strongRecOn
          generalizing selections with
        | _ size ihSize =>
            subst hSize
            intro hRank
            cases selections with
            | nil => exact nil
            | cons selection rest =>
                refine cons selection rest ?_ fun scope branch hOpens => ?_
                · exact ihSize _ (Selection.countAll_lt_cons selection rest) rest rfl
                    fun name hName => hRank name (List.mem_append_right _ hName)
                · cases hOpens with
                  | @spread _ name fragment _ hFragment _ =>
                      refine ihBound (rank name) ?_ fragment.selections fun next hNext hDefined =>
                        hRanking.falls hFragment next hNext hDefined
                      exact hRank name (List.mem_append_left _ (List.mem_singleton.mpr rfl))
                        (Cycle.mem_keys_of_get? hFragment)
                  | inlineOn _ =>
                      exact ihSize _ (Selection.countAll_inner_lt_cons _ rest) _ rfl
                        fun name hName => hRank name (List.mem_append_left _ hName)
                  | inline =>
                      exact ihSize _ (Selection.countAll_inner_lt_cons _ rest) _ rfl
                        fun name hName => hRank name (List.mem_append_left _ hName)
  exact hBelow _ selections fun name _ hDefined => hRanking.bounded name hDefined

namespace Visits

/-- The walk comes to an end. -/
theorem exists_of_accepted (hDocument : setting.document.Accepted) (type scope : SchemaType)
    (taken selections : List Selection) :
    ∃ items, setting.Visits type scope taken selections items := by
  induction selections using selections_induct hDocument generalizing scope taken with
  | nil => exact ⟨[], .done⟩
  | cons selection rest ih ihBranch =>
      by_cases hDescends : ∃ branch, setting.Descends type scope taken selection branch
      · obtain ⟨branch, hDescends⟩ := hDescends
        obtain ⟨inner, hInner⟩ := ihBranch scope branch hDescends.opens branch.condition []
        obtain ⟨items, hItems⟩ := ih scope (taken ++ [selection])
        exact ⟨_, .descend hDescends hInner hItems⟩
      · obtain ⟨items, hItems⟩ := ih scope taken
        exact ⟨_, .stay (not_exists.mp hDescends) hItems⟩

theorem unique {others : List Selection} (h : setting.Visits type scope taken selections items)
    (h' : setting.Visits type scope taken selections others) : others = items := by
  induction h generalizing others with
  | done =>
      cases h'
      rfl
  | stay hStay _ ih =>
      cases h' with
      | stay _ hRest => rw [ih hRest]
      | descend hDescends => exact absurd hDescends (hStay _)
  | descend hDescends _ _ ihInner ih =>
      cases h' with
      | stay hStay => exact absurd hDescends (hStay _)
      | descend hDescends' hInner hRest =>
          cases hDescends.opens.unique hDescends'.opens
          rw [ihInner hInner, ih hRest]

end Visits

theorem offence?_field (node : FieldNode) :
    setting.offence? type path node.selection =
      if type.selects node.name then none
      else some (.unknownField node.name type.name (setting.document.locate node.position)
        (path.child node.responseKey)) :=
  rfl

theorem offence?_of_mergeField {fields next : List MergedField} {node : FieldNode}
    (h : setting.mergeField type path fields node = .ok next) :
    setting.offence? type path node.selection = none := by
  obtain ⟨field, hField, _⟩ := mergeField_eq_ok h
  rw [offence?_field, if_pos]
  rw [← SchemaType.isSome_selectable?, hField]
  rfl

theorem offence?_of_mergeField_error {fields : List MergedField} {node : FieldNode}
    {cause : ModelError} (h : setting.mergeField type path fields node = .error cause) :
    setting.offence? type path node.selection = some cause := by
  obtain ⟨hMissing, rfl⟩ := mergeField_eq_error h
  have hSelects : type.selects node.name = false := by
    rw [← SchemaType.isSome_selectable?, show type.selectable? node.name = none from hMissing]
    rfl
  rw [offence?_field, if_neg (by simp [hSelects])]
  rfl

theorem Opens.offence? {selection : Selection} {branch : Branch}
    (h : setting.Opens scope selection branch) : setting.offence? type path selection = none := by
  cases h with
  | spread hFragment hCondition => simp [Setting.offence?, hFragment, hCondition]
  | inlineOn hCondition => simp [Setting.offence?, hCondition]
  | inline => rfl

theorem Refuses.offence? {selection : Selection} {cause : ModelError}
    (h : setting.Refuses path selection cause) :
    setting.offence? type path selection = some cause := by
  have hCause : ∀ {name fragment location}, setting.conditionType name fragment location path =
      .error cause → setting.schema.type? name = none ∧
        cause = .undefinedCondition name fragment location path := by
    intro name fragment location hError
    unfold conditionType at hError
    split at hError
    · cases hError
    · rename_i hNone
      cases hError
      exact ⟨hNone, rfl⟩
  cases h with
  | undefined hNone => simp [Setting.offence?, hNone]
  | spread hFragment hError =>
      obtain ⟨hNone, rfl⟩ := hCause hError
      simp [Setting.offence?, hFragment, hNone]
  | inline hError =>
      obtain ⟨hNone, rfl⟩ := hCause hError
      simp [Setting.offence?, hNone]

theorem Opens.origin_of_spread (hDocument : setting.document.Accepted) {position : Position}
    {name : String} {branch : Branch} (h : setting.Opens scope (.spread position name) branch) :
    ∃ location, branch.origin = .namedFragment location name := by
  cases h with
  | spread hFragment _ => exact ⟨_, by rw [hDocument.fragment?_name hFragment]⟩

theorem Opens.origin_of_inline {position : Position} {written : Option String}
    {inner : List Selection} {branch : Branch}
    (h : setting.Opens scope (.inline position written inner) branch) :
    branch.origin = .inlineFragment (setting.document.locate position) branch.condition.name := by
  cases h <;> rfl

/-- Fragments have one origin exactly if they are the same, where inline fragments stand apart. -/
theorem Opens.origin_eq_iff (hDocument : setting.document.Accepted)
    (hApart : setting.InlinesApart selections) {selection other : Selection}
    (hSelection : selection ∈ selections) (hOther : other ∈ selections) {branch branch' : Branch}
    (h : setting.Opens scope selection branch) (h' : setting.Opens scope other branch') :
    branch'.origin = branch.origin ↔ selection.SameFragment other := by
  constructor
  · intro hOrigin
    cases selection with
    | field => cases h
    | spread position name =>
        obtain ⟨location, hNamed⟩ := h.origin_of_spread hDocument
        cases other with
        | field => cases h'
        | spread position' name' =>
            obtain ⟨location', hNamed'⟩ := h'.origin_of_spread hDocument
            rw [hNamed, hNamed'] at hOrigin
            injection hOrigin with _ hName
            rw [hName]
            exact .spread
        | inline =>
            rw [hNamed, h'.origin_of_inline] at hOrigin
            cases hOrigin
    | inline position written inner =>
        cases other with
        | field => cases h'
        | spread =>
            obtain ⟨location', hNamed'⟩ := h'.origin_of_spread hDocument
            rw [h.origin_of_inline, hNamed'] at hOrigin
            cases hOrigin
        | inline position' written' inner' =>
            rw [h.origin_of_inline, h'.origin_of_inline] at hOrigin
            injection hOrigin with hLocation _
            cases Document.locate_inj hLocation
            rw [hApart _ _ _ _ _
              (List.mem_append_right _ (Selection.subset_nodesOf _ hSelection))
              (List.mem_append_right _ (Selection.subset_nodesOf _ hOther))]
            exact .inline
  · intro hSame
    cases hSame with
    | spread =>
        cases h with
        | spread hFragment _ =>
            cases h' with
            | spread hFragment' _ => rw [Option.some.inj (hFragment.symm.trans hFragment')]
    | inline => rw [h.unique h']

/-- The selections are those that the trees were grown from, one after the other. -/
def Entered (setting : Setting) (scope : SchemaType) (taken : List Selection)
    (trees : List FragmentTree) : Prop :=
  List.Forall₂ (fun selection tree => setting.Opens scope selection tree.branch) taken trees

/-- The walk goes into a fragment exactly if gathering does. -/
theorem Entered.enters_iff {gathered : Gathered} {selection : Selection} {branch : Branch}
    {rest : List Selection} (h : setting.Entered scope taken gathered.fragments)
    (hDocument : setting.document.Accepted)
    (hApart : setting.InlinesApart (taken ++ selection :: rest))
    (hOpens : setting.Opens scope selection branch) :
    setting.Enters type gathered branch ↔ setting.Descends type scope taken selection branch := by
  have hSelection : selection ∈ taken ++ selection :: rest :=
    List.mem_append_right _ List.mem_cons_self
  rw [Setting.enters_iff]
  constructor
  · rintro ⟨hApplies, hNew⟩
    refine ⟨hOpens, hApplies, fun other hOther hSame => ?_⟩
    obtain ⟨tree, hTree, hOpened⟩ := Outcome.exists_right h hOther
    exact hNew tree hTree
      ((hOpens.origin_eq_iff hDocument hApart hSelection (List.mem_append_left _ hOther)
        hOpened).mpr hSame)
  · rintro ⟨_, hApplies, hFresh⟩
    refine ⟨hApplies, fun tree hTree hOrigin => ?_⟩
    obtain ⟨other, hOther, hOpened⟩ := Outcome.exists_left h hTree
    exact hFresh other hOther
      ((hOpens.origin_eq_iff hDocument hApart hSelection (List.mem_append_left _ hOther)
        hOpened).mp hOrigin)

theorem InlinesApart.subset {others : List Selection} (h : setting.InlinesApart selections)
    (hSubset : others ⊆ selections) : setting.InlinesApart others := by
  refine h.mono fun node hNode => List.mem_append_right _ ?_
  obtain ⟨selection, hSelection, hInner⟩ := Selection.mem_nodesOf.mp hNode
  exact Selection.mem_nodesOf.mpr ⟨selection, hSubset hSelection, hInner⟩

/-- The cause of an outcome that is a failure. -/
def cause? {α : Type} : Except ModelError α → Option ModelError
  | .error cause => some cause
  | .ok _ => none

theorem cause?_eq_some_iff {α : Type} {outcome : Except ModelError α} {cause : ModelError} :
    cause? outcome = some cause ↔ outcome = .error cause := by
  cases outcome <;> simp [cause?]

/-- Gathering fails at the first offence that the walk comes upon. The induction is on the walk,
which has entered the fragments that gathering has taken. -/
theorem Visits.findSome?_offence (h : setting.Visits type scope taken selections items)
    (hDocument : setting.document.Accepted) (hApart : setting.InlinesApart (taken ++ selections))
    {gathered : Gathered} {outcome : Except ModelError Gathered}
    (hGathers : setting.Gathers type path scope gathered selections outcome)
    (hEntered : setting.Entered scope taken gathered.fragments) :
    items.findSome? (setting.offence? type path) = cause? outcome := by
  induction h generalizing gathered outcome with
  | done =>
      cases hGathers
      rfl
  | @stay scope taken rest items selection hStay _ ih =>
      have hRestApart : setting.InlinesApart (taken ++ rest) :=
        hApart.subset ((List.sublist_cons_self _ _).append_left _).subset
      rw [List.findSome?_cons]
      cases hGathers with
      | field hMerge hRest =>
          rw [offence?_of_mergeField hMerge]
          exact ih hRestApart hRest hEntered
      | unknown hMerge =>
          rw [offence?_of_mergeField_error hMerge]
          rfl
      | refused hRefuses =>
          rw [hRefuses.offence?]
          rfl
      | pass hOpens _ hRest =>
          rw [hOpens.offence?]
          exact ih hRestApart hRest hEntered
      | inside hOpens hEnters =>
          exact absurd ((hEntered.enters_iff hDocument hApart hOpens).mp hEnters) (hStay _)
      | take hOpens hEnters =>
          exact absurd ((hEntered.enters_iff hDocument hApart hOpens).mp hEnters) (hStay _)
  | @descend scope taken rest inner items selection branch hDescends _ _ ihInner ih =>
      have hOpens := hDescends.opens
      have hEnters := (hEntered.enters_iff hDocument hApart hOpens).mpr hDescends
      have hInnerApart : setting.InlinesApart ([] ++ branch.selections) :=
        hApart.branch (List.mem_append_right _ List.mem_cons_self) hOpens
      rw [List.findSome?_cons, hOpens.offence?, List.findSome?_append]
      cases hGathers with
      | field => exact absurd rfl (hOpens.ne_field _)
      | unknown => exact absurd rfl (hOpens.ne_field _)
      | refused hRefuses => exact absurd hRefuses hOpens.not_refuses
      | pass hOpens' hNot =>
          cases hOpens.unique hOpens'
          exact absurd hEnters hNot
      | inside hOpens' _ hInner =>
          cases hOpens.unique hOpens'
          rw [ihInner hInnerApart hInner .nil]
          rfl
      | take hOpens' _ hInner hRest =>
          cases hOpens.unique hOpens'
          rw [ihInner hInnerApart hInner .nil]
          refine ih (by rwa [List.append_assoc]) hRest ?_
          exact List.rel_append hEntered (.cons hOpens .nil)

/-- Collecting has the cause of the first offence. -/
theorem Visits.cause?_collectIn (h : setting.Visits type scope [] selections items)
    (hDocument : setting.document.Accepted) (hApart : setting.InlinesApart selections)
    (path : ModelPath) :
    cause? (setting.collectIn scope type selections path) =
      items.findSome? (setting.offence? type path) := by
  obtain ⟨outcome, hGathers, hCollect⟩ :=
    exists_gathers_of_collectIn hDocument scope type selections path
  rw [h.findSome?_offence hDocument hApart hGathers .nil, hCollect]
  cases outcome <;> rfl

end Setting

/-- The walk over selections is there and is the only one. Collecting them fails exactly if one of
its items is an offence, and then with what is wrong with the first of these. -/
theorem collectIn_fails_at_first_offence {setting : Setting}
    (hDocument : setting.document.Accepted) {selections : List Selection}
    (hApart : setting.InlinesApart selections) (scope type : SchemaType) (path : ModelPath) :
    ∃ items, setting.Visits type scope [] selections items ∧
      (∀ others, setting.Visits type scope [] selections others → others = items) ∧
      ((∃ cause, setting.collectIn scope type selections path = .error cause) ↔
        ∃ item ∈ items, setting.offence? type path item ≠ none) ∧
      ∀ cause, setting.collectIn scope type selections path = .error cause ↔
        ∃ before item after, items = before ++ item :: after ∧
          setting.offence? type path item = some cause ∧
          ∀ earlier ∈ before, setting.offence? type path earlier = none := by
  obtain ⟨items, hVisits⟩ :=
    Setting.Visits.exists_of_accepted hDocument type scope [] selections
  have hCause := hVisits.cause?_collectIn hDocument hApart path
  have hError : ∀ cause, setting.collectIn scope type selections path = .error cause ↔
      items.findSome? (setting.offence? type path) = some cause := by
    intro cause
    rw [← hCause, Setting.cause?_eq_some_iff]
  refine ⟨items, hVisits, fun others hOthers => hVisits.unique hOthers, ?_, fun cause => ?_⟩
  · simp only [hError]
    rw [← Option.isSome_iff_exists, List.findSome?_isSome_iff]
    simp [Option.isSome_iff_ne_none]
  · rw [hError, List.findSome?_eq_some_iff]

/-- What is asked of films is wrong, but is passed over for a book. What is asked of books is right
at first and then wrong, and the last fragment is defined nowhere. -/
def offendingHits : List Selection :=
  [.spread ⟨2, 1⟩ "Heading", .inline ⟨3, 1⟩ (some "Film") [.field ⟨3, 9⟩ none "reels" []],
    .inline ⟨4, 1⟩ (some "Book")
      [.field ⟨4, 9⟩ none "pages" [], .field ⟨4, 19⟩ (some "weight") "grams" []],
    .spread ⟨5, 1⟩ "Elsewhere"]

def offendingTask : Task :=
  (Task.ofItems? hitTypes (hitItems offendingHits)).get (by decide +kernel)

/-- For a book it is the second field inside of the fragment on books that collecting fails at. -/
theorem book_fails_at_unknown_weight :
    ∃ scope type items before item after, offendingTask.schema.type? "Hit" = some scope ∧
      offendingTask.schema.type? "Book" = some type ∧
      offendingTask.Visits type scope [] offendingHits items ∧
      offendingTask.collectIn scope type offendingHits (.root "Query") =
        .error (.unknownField "grams" "Book" (offendingTask.document.locate ⟨4, 19⟩)
          (.child (.root "Query") "weight")) ∧
      items = before ++ item :: after ∧
      offendingTask.offence? type (.root "Query") item =
        some (.unknownField "grams" "Book" (offendingTask.document.locate ⟨4, 19⟩)
          (.child (.root "Query") "weight")) ∧
      ∀ earlier ∈ before, offendingTask.offence? type (.root "Query") earlier = none := by
  have hStart : Startable offendingTask (.initial 9) offendingTask.document.operations :=
    .ofItems (Option.some_get _).symm (by decide +kernel) 9
  have hRun : ((offendingTask.schema.type? "Hit").bind fun scope =>
      (offendingTask.schema.type? "Book").bind fun type =>
        Setting.cause? (offendingTask.collectIn scope type offendingHits (.root "Query"))) =
      some (.unknownField "grams" "Book" (offendingTask.document.locate ⟨4, 19⟩)
        (.child (.root "Query") "weight")) := by
    decide +kernel
  obtain ⟨scope, hScope, hRun⟩ := Option.bind_eq_some_iff.mp hRun
  obtain ⟨type, hType, hRun⟩ := Option.bind_eq_some_iff.mp hRun
  have hFails := Setting.cause?_eq_some_iff.mp hRun
  have hInside : offendingHits ⊆ offendingTask.document.nodes := by
    have hFound : (⟨⟨1, 3⟩, none, "found", offendingHits⟩ : FieldNode).selection ∈
        offendingTask.document.nodes := by decide +kernel
    exact fun _ hMem => Document.mem_nodes_of_body (Document.body_of_node hFound) hMem
  obtain ⟨items, hVisits, _, _, hFirst⟩ :=
    collectIn_fails_at_first_offence hStart.setting.document
      (.of_positions hStart.setting.positions hInside) scope type (.root "Query")
  obtain ⟨before, item, after, hItems, hOffence, hEarlier⟩ := (hFirst _).mp hFails
  exact ⟨scope, type, items, before, item, after, hScope, hType, hVisits, hFails, hItems, hOffence,
    hEarlier⟩

end ResponseModels
