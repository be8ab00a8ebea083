import ResponseModels.Proofs.Run.Rounds
import ResponseModels.Proofs.Selection.Rejection

/-! Runs that fail over an unknown field. The failure is that of one request which was being
modelled: one of its type cases cannot be collected, or one of its trees has no fields, or what is
selected beneath a field of such a tree cannot be collected. -/
namespace ResponseModels

open GraphQL

variable {task : Task} {before : Session} {cause : ModelError} {request : Request}

namespace Build

variable {path : ModelPath} {tree : FragmentTree}

theorem not_fails_requestName (hUnknown : cause.isUnknownField = true) {key : OriginKey}
    {proposed : String} : ¬ (requestName key proposed).Fails before cause := by
  intro h
  have hError := fails_requestName h
  rcases before.names.request_cases key proposed with ⟨_, _, hEq⟩ | ⟨_, _, _, hEq⟩ | hEq
  · rw [hEq] at hError
    cases hError
  · rw [hEq] at hError
    cases hError
  · rw [hEq] at hError
    cases hError
    cases hUnknown

/-- Asking for a selection set fails when it cannot be collected at its declared type. -/
theorem fails_request (hUnknown : cause.isUnknownField = true) {inquiry : Inquiry}
    (h : (Build.request task inquiry).Fails before cause) :
    task.collect inquiry.declared inquiry.selections inquiry.path = .error cause := by
  unfold Build.request at h
  rcases fails_bind h with hCollect | ⟨collected, _, _, h⟩
  · exact fails_ofExcept hCollect
  · dsimp only at h
    rcases fails_bind h with hName | ⟨_, _, _, h⟩
    · exact absurd hName (not_fails_requestName hUnknown)
    · exact absurd (fails_bind_pure h) (not_fails_modify _)

theorem fails_requestField (hUnknown : cause.isUnknownField = true) {merged : MergedField}
    {declared : SchemaType} {overridden : List MergedField}
    (h : (requestField task merged declared overridden).Fails before cause) :
    task.collect declared merged.nested merged.path = .error cause := by
  unfold requestField at h
  have h := fails_get_bind h
  split at h
  · exact absurd h (not_fails_pure _)
  · exact fails_request hUnknown (fails_get_bind h)

/-- A tree has no interface over an unknown field: it has no fields, or what is selected beneath one
of them cannot be collected at the field's type. -/
inductive Lacks (task : Task) (path : ModelPath) (cause : ModelError) (tree : FragmentTree) : Prop
  | fields : task.treeFields path tree = .error cause → Lacks task path cause tree
  | beneath {fields : List MergedField} {merged : MergedField} {declared : SchemaType} :
    task.treeFields path tree = .ok fields → merged ∈ fields →
    innermostType? task merged = some declared →
    task.collect declared merged.nested merged.path = .error cause → Lacks task path cause tree

theorem fails_fieldModel (hUnknown : cause.isUnknownField = true) {merged : MergedField}
    {overridden : List MergedField}
    (h : (fieldModel task merged overridden).Fails before cause) :
    ∃ declared, innermostType? task merged = some declared ∧
      task.collect declared merged.nested merged.path = .error cause := by
  unfold fieldModel at h
  dsimp only at h
  split at h
  · cases fails_throw (fails_bind_pure h)
    cases hUnknown
  · rename_i declared hDeclared
    split at h
    · exact ⟨declared, hDeclared, fails_requestField hUnknown (fails_map (fails_bind_pure h))⟩
    · split at h
      · cases fails_throw (fails_bind_pure h)
        cases hUnknown
      · exact absurd (fails_bind_pure h) (not_fails_pure _)

theorem fails_declareFields (hUnknown : cause.isUnknownField = true)
    {bases : List (InterfaceModel × List MergedField)} {fields : List MergedField}
    (h : (declareFields task bases fields).Fails before cause) :
    ∃ merged ∈ fields, ∃ declared, innermostType? task merged = some declared ∧
      task.collect declared merged.nested merged.path = .error cause := by
  induction fields generalizing before with
  | nil => exact absurd h (not_fails_pure _)
  | cons merged rest ih =>
      have hLater : ∀ {session}, (declareFields task bases rest).Fails session cause →
          ∃ other ∈ merged :: rest, ∃ declared, innermostType? task other = some declared ∧
            task.collect declared other.nested other.path = .error cause := by
        intro session hRest
        obtain ⟨other, hOther, hCollect⟩ := ih hRest
        exact ⟨other, List.mem_cons_of_mem _ hOther, hCollect⟩
      have hDeclared : ∀ {overridden}, (do
            let field ← fieldModel task merged overridden
            return field :: (← declareFields task bases rest)).Fails before cause →
          ∃ other ∈ merged :: rest, ∃ declared, innermostType? task other = some declared ∧
            task.collect declared other.nested other.path = .error cause := by
        intro overridden hBoth
        rcases fails_bind hBoth with hField | ⟨_, _, _, hBoth⟩
        · exact ⟨merged, List.mem_cons_self, fails_fieldModel hUnknown hField⟩
        · exact hLater (fails_bind_pure hBoth)
      rw [declareFields] at h
      split at h
      · exact hDeclared h
      · dsimp only at h
        split at h
        · exact hDeclared h
        · exact hLater h

theorem fails_assemble (hUnknown : cause.isUnknownField = true)
    {bases : List (InterfaceModel × List MergedField)}
    (h : (assemble task path tree bases).Fails before cause) : Lacks task path cause tree := by
  unfold assemble at h
  rcases fails_bind h with hFields | ⟨fields, _, hFields, h⟩
  · exact .fields (fails_ofExcept hFields)
  · rw [yields_ofExcept] at hFields
    rcases fails_bind h with hDeclare | ⟨_, _, _, h⟩
    · obtain ⟨merged, hMerged, declared, hDeclared, hCollect⟩ :=
        fails_declareFields hUnknown hDeclare
      exact .beneath hFields.1 hMerged hDeclared hCollect
    · rcases fails_bind h with hName | ⟨_, _, _, h⟩
      · exact absurd hName (not_fails_requestName hUnknown)
      · exact absurd (fails_bind_pure h) (not_fails_modify _)

mutual

/-- The interface of a tree fails by a tree in it. -/
theorem fails_synthesize (hUnknown : cause.isUnknownField = true) {before : Session} :
    ∀ tree : FragmentTree, (synthesize task path tree).Fails before cause →
      ∃ subtree, FragmentTree.Within subtree tree ∧ Lacks task path cause subtree
  | .node kind origin name condition selections children, h => by
    rw [synthesize] at h
    have h := fails_get_bind h
    split at h
    · exact absurd h (not_fails_pure _)
    · rcases fails_bind h with hEach | ⟨_, _, _, hAssemble⟩
      · obtain ⟨child, hChild, subtree, hWithin, hLacks⟩ :=
          fails_synthesizeEach hUnknown children hEach
        exact ⟨subtree, .inner hChild hWithin, hLacks⟩
      · exact ⟨_, .self _, fails_assemble hUnknown hAssemble⟩

theorem fails_synthesizeEach (hUnknown : cause.isUnknownField = true) {before : Session} :
    ∀ trees : List FragmentTree, (synthesizeEach task path trees).Fails before cause →
      ∃ tree ∈ trees, ∃ subtree, FragmentTree.Within subtree tree ∧ Lacks task path cause subtree
  | [], h => absurd h (not_fails_pure _)
  | tree :: rest, h => by
    rw [synthesizeEach] at h
    rcases fails_bind h with hModel | ⟨_, _, _, h⟩
    · exact ⟨tree, List.mem_cons_self, fails_synthesize hUnknown tree hModel⟩
    · rcases fails_bind h with hFields | ⟨_, _, _, h⟩
      · exact ⟨tree, List.mem_cons_self, tree, .self _, .fields (fails_ofExcept hFields)⟩
      · obtain ⟨other, hOther, hInside⟩ :=
          fails_synthesizeEach hUnknown rest (fails_bind_pure h)
        exact ⟨other, List.mem_cons_of_mem _ hOther, hInside⟩

end

theorem fails_extraInterfaces (hUnknown : cause.isUnknownField = true)
    {represented : List SchemaType} {trees : List FragmentTree}
    (h : (extraInterfaces task path represented trees).Fails before cause) :
    ∃ tree ∈ trees, ∃ subtree, FragmentTree.Within subtree tree ∧
      Lacks task path cause subtree := by
  induction trees generalizing before with
  | nil => exact absurd h (not_fails_pure _)
  | cons tree rest ih =>
      have hLater : ∀ {session}, (extraInterfaces task path represented rest).Fails session cause →
          ∃ other ∈ tree :: rest, ∃ subtree, FragmentTree.Within subtree other ∧
            Lacks task path cause subtree := by
        intro session hRest
        obtain ⟨other, hOther, hInside⟩ := ih hRest
        exact ⟨other, List.mem_cons_of_mem _ hOther, hInside⟩
      rw [extraInterfaces] at h
      split at h
      · rcases fails_bind h with hModel | ⟨_, _, _, h⟩
        · exact ⟨tree, List.mem_cons_self, fails_synthesize hUnknown tree hModel⟩
        · exact hLater (fails_bind_pure h)
      · exact hLater h

end Build

namespace Request

variable {setting : Setting} {tree : FragmentTree} {requests : List Request}

/-- The trees that are gone through for a request: those in its return tree, and those that come
about by the request itself. -/
def Spans (setting : Setting) (request : Request) (tree : FragmentTree) : Prop :=
  FragmentTree.Within tree request.returnTree ∨ request.Grows setting tree

theorem Known.rooted_of_spans (hSetting : setting.Admissible)
    (h : request.Known setting requests) (hRequest : request ∈ requests)
    (hSpans : request.Spans setting tree) : Rooted setting requests tree := by
  rcases hSpans with hWithin | hGrows
  · exact h.rooted.within hWithin
  · exact h.rooted_of_grows hSetting hRequest hGrows

/-- A request has no models over an unknown field: its selections cannot be collected at a possible
type, or one of its trees has no interface. -/
inductive Fails (task : Task) (request : Request) (cause : ModelError) : Prop
  | case {object : FieldedType} :
    object ∈ task.schema.possibleTypes request.declared.name →
    task.collectIn request.declared (.object object) request.selections request.path =
      .error cause → Fails task request cause
  | tree {tree : FragmentTree} :
    request.Spans task.toSetting tree → Build.Lacks task request.path cause tree →
    Fails task request cause

end Request

/-- Type cases fail over an unknown field only at a possible type. -/
theorem Setting.typeCases_eq_error {setting : Setting} (hSetting : setting.Admissible)
    (hUnknown : cause.isUnknownField = true) {declared : SchemaType}
    {selections : List Selection} {path : ModelPath}
    (h : setting.typeCases declared selections path = .error cause) :
    ∃ object ∈ setting.schema.possibleTypes declared.name,
      setting.collectIn declared (.object object) selections path = .error cause := by
  unfold typeCases at h
  rcases (Outcome.bind_eq_error_iff _ _ _).mp h with hTypes | ⟨types, hTypes, hCases⟩
  · unfold Schema.requirePossibleTypes at hTypes
    split at hTypes
    · cases hTypes
      cases hUnknown
    · split at hTypes
      · cases hTypes
        cases hUnknown
      · cases hTypes
  · obtain ⟨object, hObject, hCase⟩ := Outcome.mapM_eq_error hCases
    have hPossible : object ∈ setting.schema.possibleTypes declared.name := by
      unfold Schema.requirePossibleTypes at hTypes
      split at hTypes
      · cases hTypes
      · split at hTypes
        · cases hTypes
        · cases hTypes
          exact hObject
    refine ⟨object, hPossible, ?_⟩
    unfold typeCase at hCase
    rwa [hSetting.schema.wellFormed.type?_of_possible hPossible] at hCase

namespace Build

theorem fails_returnTree (hUnknown : cause.isUnknownField = true)
    (h : (synthesize task request.path request.returnTree).Fails before cause) :
    request.Fails task cause := by
  obtain ⟨tree, hWithin, hLacks⟩ := fails_synthesize hUnknown _ h
  exact .tree (.inl hWithin) hLacks

theorem fails_caseClass (hUnknown : cause.isUnknownField = true) {returnType : InterfaceModel}
    {case : Collected} (hCase : Sound.IsCase task.toSetting request case)
    {represented : List SchemaType} {type proposed : String}
    (h : (caseClass task request returnType case represented type proposed).Fails before cause) :
    request.Fails task cause := by
  unfold caseClass at h
  dsimp only at h
  rcases fails_bind h with hExtras | ⟨_, _, _, h⟩
  · obtain ⟨extra, hExtra, tree, hWithin, hLacks⟩ := fails_extraInterfaces hUnknown hExtras
    obtain ⟨object, hObject, hCollected⟩ := hCase
    obtain ⟨fragment, hFragment, hInside⟩ := Request.within_of_mem_caseExtras hExtra
    refine .tree (.inr ?_) hLacks
    exact .fragment (.inr ⟨object, hObject, rfl⟩) hCollected hFragment (hWithin.trans hInside)
  · rcases fails_bind h with hName | ⟨_, _, _, h⟩
    · exact absurd hName (not_fails_requestName hUnknown)
    · exact absurd (fails_bind_pure h) (not_fails_modify _)

theorem fails_caseClasses (hUnknown : cause.isUnknownField = true) {returnType : InterfaceModel}
    {cases : List Collected} (hCases : ∀ case ∈ cases, Sound.IsCase task.toSetting request case)
    (h : (caseClasses task request returnType cases).Fails before cause) :
    request.Fails task cause := by
  induction cases generalizing before with
  | nil => exact absurd h (not_fails_pure _)
  | cons case rest ih =>
      obtain ⟨hCase, hRest⟩ := List.forall_mem_cons.mp hCases
      rw [caseClasses] at h
      rcases fails_bind h with hClass | ⟨_, _, _, h⟩
      · exact fails_caseClass hUnknown hCase hClass
      · exact ih hRest (fails_bind_pure h)

theorem not_fails_resultParser (hUnknown : cause.isUnknownField = true)
    {returnType : InterfaceModel} {classes : List ClassModel}
    {discriminators : OrderedMap String} :
    ¬ (resultParser task request returnType classes discriminators).Fails before cause := by
  intro h
  unfold resultParser at h
  rcases fails_bind h with hName | ⟨_, _, _, h⟩
  · exact not_fails_requestName hUnknown hName
  · exact not_fails_modify _ (fails_bind_pure h)

theorem fails_modelObject (hUnknown : cause.isUnknownField = true) {cases : List Collected}
    (hCases : ∀ case ∈ cases, Sound.IsCase task.toSetting request case)
    (h : (modelObject task request cases).Fails before cause) : request.Fails task cause := by
  unfold modelObject at h
  split at h
  · rcases fails_bind h with hReturn | ⟨_, _, _, h⟩
    · exact fails_returnTree hUnknown hReturn
    · dsimp only at h
      rcases fails_bind h with hClass | ⟨_, _, _, h⟩
      · exact fails_caseClass hUnknown (hCases _ List.mem_cons_self) hClass
      · exact absurd h (not_fails_resultParser hUnknown)
  · cases fails_throw h
    cases hUnknown

theorem fails_modelAbstract (hUnknown : cause.isUnknownField = true) {cases : List Collected}
    (hCases : ∀ case ∈ cases, Sound.IsCase task.toSetting request case)
    (h : (modelAbstract task request cases).Fails before cause) : request.Fails task cause := by
  have hLeft : ∀ case ∈ if task.config.collapseCases then collapseCases cases else cases,
      Sound.IsCase task.toSetting request case := by
    rcases collapse_cases task.config.collapseCases cases with hAll | ⟨first, _, rfl, _, hFirst⟩
    · rw [hAll]
      exact hCases
    · rw [hFirst]
      exact List.forall_mem_singleton.mpr (hCases _ List.mem_cons_self)
  unfold modelAbstract at h
  rcases fails_bind h with hReturn | ⟨_, _, _, h⟩
  · exact fails_returnTree hUnknown hReturn
  · dsimp only at h
    split at h
    · rename_i hLone
      rw [hLone] at hLeft
      rcases fails_bind h with hClass | ⟨_, _, _, h⟩
      · exact fails_caseClass hUnknown (hLeft _ List.mem_cons_self) hClass
      · exact absurd h (not_fails_resultParser hUnknown)
    · rcases fails_bind h with hClasses | ⟨_, _, _, h⟩
      · exact fails_caseClasses hUnknown hLeft hClasses
      · exact absurd h (not_fails_resultParser hUnknown)

theorem fails_model (hSetting : task.toSetting.Admissible)
    (hUnknown : cause.isUnknownField = true) (h : (model task request).Fails before cause) :
    request.Fails task cause := by
  unfold model at h
  rcases fails_bind h with hCases | ⟨cases, _, hCases, h⟩
  · obtain ⟨object, hObject, hError⟩ :=
      Setting.typeCases_eq_error hSetting hUnknown (fails_ofExcept hCases)
    exact .case hObject hError
  · unfold requestCases at hCases
    rw [yields_ofExcept] at hCases
    have hEach := Sound.isCase_of_casesIn (Setting.typeCases_eq_ok hSetting hCases.1).2
    split at h
    · exact fails_modelObject hUnknown hEach h
    · exact fails_modelAbstract hUnknown hEach h
    · exact fails_modelAbstract hUnknown hEach h
    · cases fails_throw h
      cases hUnknown

/-- Taking up a request fails over an unknown field only by its models. -/
theorem fails_process (hSetting : task.toSetting.Admissible)
    (hUnknown : cause.isUnknownField = true) (h : (process task request).Fails before cause) :
    request.Fails task cause := by
  unfold process at h
  rcases fails_bind h with hModel | ⟨_, _, _, h⟩
  · exact fails_model hSetting hUnknown hModel
  · split at h
    · exact absurd h (not_fails_pure _)
    · rcases fails_bind h with hName | ⟨_, _, _, h⟩
      · exact absurd hName (not_fails_requestName hUnknown)
      · exact absurd h (not_fails_modify _)

theorem fails_requestOperation (hUnknown : cause.isUnknownField = true) {operation : Operation}
    (h : (requestOperation task operation).Fails before cause) :
    ∃ root declared, task.schema.root? operation.kind = some root ∧
      task.schema.type? root.name = some declared ∧
      ∃ path, task.collect declared operation.selections path = .error cause := by
  rcases requestOperation_cases task operation with
    ⟨_, _, hThrow⟩ | ⟨root, declared, hRoot, hType, hAsk⟩
  · rw [hThrow] at h
    cases fails_throw h
    cases hUnknown
  · rw [hAsk] at h
    exact ⟨root, declared, hRoot, hType, _, fails_request hUnknown (fails_bind_pure h)⟩

theorem fails_requestOperations (hUnknown : cause.isUnknownField = true)
    {operations : List Operation}
    (h : (requestOperations task operations).Fails before cause) :
    ∃ operation ∈ operations, ∃ root declared,
      task.schema.root? operation.kind = some root ∧
      task.schema.type? root.name = some declared ∧
      ∃ path, task.collect declared operation.selections path = .error cause := by
  induction operations generalizing before with
  | nil => exact absurd h (not_fails_pure _)
  | cons operation rest ih =>
      rw [requestOperations] at h
      rcases fails_bind h with hFirst | ⟨_, _, _, hRest⟩
      · exact ⟨operation, List.mem_cons_self, fails_requestOperation hUnknown hFirst⟩
      · obtain ⟨other, hOther, hCollect⟩ := ih hRest
        exact ⟨other, List.mem_cons_of_mem _ hOther, hCollect⟩

end Build

namespace Stage

variable {names : Names} {operations : List Operation} {taken requests : List Request}
  {session : Session}

/-- A round fails at the stage of the request that fails. -/
theorem of_fails_processAll (h : Stage task names operations taken requests session)
    (hFails : (Build.processAll task requests).Fails session cause) :
    ∃ taken request rest before, Stage task names operations taken (request :: rest) before ∧
      (Build.process task request).Fails before cause := by
  induction requests generalizing taken session with
  | nil => exact absurd hFails (Build.not_fails_pure _)
  | cons request rest ih =>
      rw [Build.processAll] at hFails
      rcases Build.fails_bind hFails with hFirst | ⟨_, middle, hFirst, hRest⟩
      · exact ⟨taken, request, rest, session, h, hFirst⟩
      · exact ih (h.step hFirst) hRest

theorem of_fails_drain {rounds : Nat} (h : Stage task names operations taken [] session)
    (hFails : (Build.drain task rounds).Fails session cause) :
    ∃ taken request rest before, Stage task names operations taken (request :: rest) before ∧
      (Build.process task request).Fails before cause := by
  induction rounds generalizing taken session with
  | zero => exact absurd hFails (Build.not_fails_pure _)
  | succ rounds ih =>
      rw [Build.drain] at hFails
      have hFails := Build.fails_get_bind hFails
      split at hFails
      · exact absurd hFails (Build.not_fails_pure _)
      · rcases Build.fails_bind hFails with hModify | ⟨_, cleared, hModify, hFails⟩
        · exact absurd hModify (Build.not_fails_modify _)
        · rw [Build.yields_modify] at hModify
          subst hModify
          rcases Build.fails_bind hFails with hRound | ⟨_, middle, hRound, hRest⟩
          · exact of_fails_processAll h.round hRound
          · exact ih (h.round.processAll hRound) hRest

end Stage

/-- A run fails while it asks for the operations, or at a stage where a request is taken up. -/
theorem fails_compileOperations {names : Names} {operations : List Operation}
    (h : (compileOperations task names operations).1 = .error cause) :
    (Build.requestOperations task operations).Fails (.initial names) cause ∨
      ∃ taken request rest session, Stage task names operations taken (request :: rest) session ∧
        (Build.process task request).Fails session cause := by
  have hFails : (Build.compile task operations).Fails (.initial names) cause := h
  rw [Build.compile] at hFails
  rcases Build.fails_bind hFails with hOperations | ⟨_, asked, hOperations, hFails⟩
  · exact .inl hOperations
  · rcases Build.fails_bind hFails with hDrain | ⟨_, _, _, hFails⟩
    · exact .inr (Stage.of_fails_drain (.start hOperations) hDrain)
    · exact absurd (Build.fails_get_bind hFails) (Build.not_fails_pure _)

end ResponseModels
