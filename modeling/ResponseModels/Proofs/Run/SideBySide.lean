import ResponseModels.Proofs.Model.Renaming
import ResponseModels.Proofs.Recompiling

/-! Two runs side by side. Each run draws on names of its own, and what the one has called in one
way the other has called in another. Every step is the same for both but for that: given renamed
arguments in a renamed session, it comes to a renamed value and leaves a renamed session behind,
unless one of the runs is out of names. -/
namespace ResponseModels

open GraphQL

/-- Keys that have a name on both sides have names that correspond. -/
def Names.Matches (newName : String → String) (names names' : Names) : Prop :=
  ∀ key name name', names.nameOf? key = some name → names'.nameOf? key = some name' →
    newName name = name'

/-- What corresponds later corresponded before. -/
theorem Names.Matches.of_keptBy {newName : String → String} {names names' later later' : Names}
    (h : later.Matches newName later') (hKept : names.KeptBy later)
    (hKept' : names'.KeptBy later') : names.Matches newName names' :=
  fun key name name' hName hName' => h key name name' (hKept _ _ hName) (hKept' _ _ hName')

/-- No name was left for a model. -/
def ModelError.OutOfNames : ModelError → Prop
  | .namesExhausted _ _ => True
  | _ => False

theorem Names.outOfNames_of_request {names : Names} {key : OriginKey} {proposed : String}
    {cause : ModelError} (h : (names.request key proposed).1 = .error cause) :
    cause.OutOfNames := by
  rcases names.request_cases key proposed with ⟨_, _, hEq⟩ | ⟨_, _, _, hEq⟩ | hEq
  · rw [hEq] at h
    cases h
  · rw [hEq] at h
    cases h
  · rw [hEq] at h
    cases h
    trivial

namespace Build

variable {α β γ δ : Type} {newName : String → String}

/-- How two runs end side by side: with values and sessions that correspond, with the same error,
or with one of them out of names. -/
inductive Parallel (newName : String → String) (translate : α → α) :
    Except ModelError α × Session → Except ModelError α × Session → Prop
  | yields (value : α) (after : Session) (names : Names) :
    Parallel newName translate (.ok value, after)
      (.ok (translate value), after.rename newName names)
  | fails (cause : ModelError) (after after' : Session) :
    Parallel newName translate (.error cause, after) (.error cause, after')
  | firstOut {cause : ModelError} (after : Session) (second : Except ModelError α × Session) :
    cause.OutOfNames → Parallel newName translate (.error cause, after) second
  | secondOut {cause : ModelError} (first : Except ModelError α × Session) (after' : Session) :
    cause.OutOfNames → Parallel newName translate first (.error cause, after')

namespace Parallel

variable {translate : α → α} {first second : Except ModelError α × Session}

theorem value_eq (h : Parallel newName translate first second) {value value' : α}
    (hFirst : first.1 = .ok value) (hSecond : second.1 = .ok value') :
    value' = translate value := by
  cases h with
  | yields found after names =>
      cases hFirst
      cases hSecond
      rfl
  | fails cause after after' => cases hFirst
  | firstOut after second hOut => cases hFirst
  | secondOut first after' hOut => cases hSecond

theorem exists_error (h : Parallel newName translate first second) {cause : ModelError}
    (hFirst : first.1 = .error cause) (hNamed : ¬ cause.OutOfNames) :
    ∃ cause', second.1 = .error cause' ∧ (cause' = cause ∨ cause'.OutOfNames) := by
  cases h with
  | yields found after names => cases hFirst
  | fails found after after' =>
      cases hFirst
      exact ⟨cause, rfl, .inl rfl⟩
  | firstOut after second hOut =>
      cases hFirst
      exact absurd hOut hNamed
  | secondOut first after' hOut => exact ⟨_, rfl, .inr hOut⟩

end Parallel

/-- Whether it fails or not, the step changes the names by asking for some and in no other way. -/
def AsksNames (step : Build α) : Prop :=
  ∀ before : Session, ∃ calls, (step.run before).2.names = before.names.after calls

/-- What follows a step asks for names from those that the step has left. -/
theorem names_run_bind {step : Build α} {next : α → Build β}
    (hNext : ∀ value, AsksNames (next value)) (before : Session) :
    ∃ calls, ((step >>= next).run before).2.names = (step.run before).2.names.after calls := by
  rw [run_bind]
  rcases step.run before with ⟨_ | value, middle⟩
  · exact ⟨[], rfl⟩
  · exact hNext value middle

namespace AsksNames

theorem of_eq {step : Build α} (h : ∀ before, (step.run before).2.names = before.names) :
    AsksNames step :=
  fun before => ⟨[], h before⟩

theorem bind {step : Build α} {next : α → Build β} (hStep : AsksNames step)
    (hNext : ∀ value, AsksNames (next value)) : AsksNames (step >>= next) := by
  intro before
  obtain ⟨calls, hCalls⟩ := hStep before
  obtain ⟨more, hMore⟩ := names_run_bind hNext before
  exact ⟨calls ++ more, by rw [hMore, hCalls, Names.after_append]⟩

/-- So names that were there before a step follows are there afterwards. -/
theorem keptBy {step : Build α} {next : α → Build β} (hNext : ∀ value, AsksNames (next value))
    (before : Session) :
    (step.run before).2.names.KeptBy ((step >>= next).run before).2.names := by
  obtain ⟨calls, hCalls⟩ := names_run_bind hNext before
  intro key name hName
  rw [hCalls]
  exact Names.nameOf?_after hName calls

end AsksNames

/-- From corresponding sessions the two steps go side by side, as long as the names that they end
with correspond. -/
structure Agrees (newName : String → String) (translate : α → α) (step step' : Build α) :
    Prop where
  asks : AsksNames step
  parallel : ∀ before names,
    (step.run before).2.names.Matches newName (step'.run (before.rename newName names)).2.names →
    Parallel newName translate (step.run before) (step'.run (before.rename newName names))

/-- Given renamed arguments, the step does the same with other names. -/
def Equivariant (newName : String → String) (given : γ → γ) (translate : α → α)
    (step : γ → Build α) : Prop :=
  ∀ value, Agrees newName translate (step value) (step (given value))

/-- What comes after a step goes side by side from where the step has come to, since later names
tell what names were there before. -/
theorem Agrees.then {translate : α → α} {translate' : β → β} {step step' : Build α}
    {next next' : α → Build β} (hStep : Agrees newName translate step step')
    (hNext : ∀ value, Agrees newName translate' (next value) (next' (translate value)))
    (hAsks : ∀ value, AsksNames (next' value)) :
    Agrees newName translate' (step >>= next) (step' >>= next') := by
  refine ⟨hStep.asks.bind fun value => (hNext value).asks, fun before names hMatches => ?_⟩
  have hParallel := hStep.parallel before names (hMatches.of_keptBy
    (AsksNames.keptBy (fun value => (hNext value).asks) before) (AsksNames.keptBy hAsks _))
  rw [run_bind, run_bind] at hMatches ⊢
  generalize step.run before = first at hMatches hParallel ⊢
  generalize step'.run (before.rename newName names) = second at hMatches hParallel ⊢
  cases hParallel with
  | yields value after names => exact (hNext value).parallel after names hMatches
  | fails cause after after' => exact .fails cause after after'
  | firstOut after second hOut => exact .firstOut after _ hOut
  | secondOut first after' hOut => exact .secondOut _ after' hOut

namespace Agrees

variable {translate : α → α} {translate' : β → β}

theorem pure {value value' : α} (h : value' = translate value) :
    Agrees newName translate (Pure.pure value) (Pure.pure value') := by
  subst h
  exact ⟨.of_eq fun _ => rfl, fun before names _ => .yields value before names⟩

theorem throw (cause : ModelError) :
    Agrees newName translate (MonadExcept.throw cause) (MonadExcept.throw cause) :=
  ⟨.of_eq fun _ => rfl, fun before _ _ => .fails cause before _⟩

theorem bind {step step' : Build α} {next : α → Build β}
    (hStep : Agrees newName translate step step')
    (hNext : Equivariant newName translate translate' next) :
    Agrees newName translate' (step >>= next) (step' >>= next) :=
  hStep.then hNext fun value => (hNext value).asks

theorem map {step step' : Build α} (hStep : Agrees newName translate step step') {f : α → β}
    (hf : ∀ value, f (translate value) = translate' (f value)) :
    Agrees newName translate' (f <$> step) (f <$> step') := by
  rw [map_eq_pure_bind, map_eq_pure_bind]
  exact hStep.bind fun value => .pure (hf value)

/-- What does not depend on the session holds no names of models. -/
theorem ofExcept (outcome : Except ModelError α) :
    Agrees newName id (Build.ofExcept outcome) (Build.ofExcept outcome) := by
  cases outcome with
  | error cause => exact .throw cause
  | ok value => exact .pure rfl

/-- The names that two keys are given correspond, unless there is none for one of them. -/
theorem requestName (key : OriginKey) (proposed : String) :
    Agrees newName newName (Build.requestName key proposed)
      (Build.requestName key proposed) := by
  constructor
  · intro before
    exact ⟨[(key, proposed)], by rw [run_requestName]; rfl⟩
  · intro before names hMatches
    rw [run_requestName, run_requestName] at hMatches ⊢
    change (before.names.request key proposed).2.Matches newName
      (names.request key proposed).2 at hMatches
    cases hFirst : (before.names.request key proposed).1 with
    | error cause => exact .firstOut _ _ (Names.outOfNames_of_request hFirst)
    | ok name =>
        cases hSecond : (names.request key proposed).1 with
        | error cause =>
            have hRenamed : ((before.rename newName names).names.request key proposed).1 =
                .error cause := hSecond
            rw [hRenamed]
            exact .secondOut _ _ (Names.outOfNames_of_request hSecond)
        | ok name' =>
            have hSame : newName name = name' :=
              hMatches key name name' (Names.nameOf?_request hFirst) (Names.nameOf?_request hSecond)
            have hRenamed : ((before.rename newName names).names.request key proposed).1 =
                .ok (newName name) := by
              rw [hSame]
              exact hSecond
            rw [hRenamed]
            exact .yields name { before with names := (before.names.request key proposed).2 } _

/-- A look at the session goes on with what is renamed there. -/
theorem look {next next' : Session → Build α}
    (hNext : ∀ session names,
      Agrees newName translate (next session) (next' (session.rename newName names))) :
    Agrees newName translate (get >>= next) (get >>= next') :=
  ⟨fun before => (hNext before before.names).asks before,
    fun before names => (hNext before names).parallel before names⟩

end Agrees

namespace Equivariant

variable {given : γ → γ} {translate : α → α} {translate' : β → β}

theorem pure {value : γ → α} (h : ∀ c, value (given c) = translate (value c)) :
    Equivariant newName given translate (fun c => Pure.pure (value c)) :=
  fun c => .pure (h c)

theorem const {step : Build α} (h : Agrees newName translate step step) :
    Equivariant newName given translate (fun _ => step) :=
  fun _ => h

/-- What follows may draw on what was given as well as on what was found. -/
theorem bind {step : γ → Build α} {next : γ → α → Build β}
    (hStep : Equivariant newName given translate step)
    (hNext : Equivariant newName (Prod.map given translate) translate'
      (fun pair => next pair.1 pair.2)) :
    Equivariant newName given translate' (fun c => step c >>= next c) :=
  fun c => (hStep c).then (fun value => hNext (c, value)) fun value =>
    (hNext (given c, value)).asks

/-- Arguments may be made from others, when that commutes with renaming. -/
theorem comp {step : γ → Build α} (h : Equivariant newName given translate step)
    {given' : δ → δ} (make : δ → γ) (hMake : ∀ d, make (given' d) = given (make d)) :
    Equivariant newName given' translate (fun d => step (make d)) := by
  intro d
  have hStep := h (make d)
  rwa [← hMake] at hStep

/-- A change of anything but the names. -/
theorem changing {change : γ → Session → Session}
    (hNames : ∀ c session, (change c session).names = session.names)
    (hChange : ∀ c session names, change (given c) (session.rename newName names) =
      (change c session).rename newName names) :
    Equivariant newName given id (fun c => (modify (change c) : Build PUnit)) := by
  intro c
  constructor
  · exact .of_eq (hNames c)
  · intro before names _
    rw [run_modify, run_modify, hChange]
    exact .yields () (change c before) names

section OneToOne

variable (hRename : Function.Injective newName)

include hRename

theorem register : Equivariant newName (Model.rename newName) id Build.register :=
  changing (fun _ _ => rfl) fun model _ _ => Session.register_rename hRename model

theorem addInterface (key : OriginKey) :
    Equivariant newName (InterfaceModel.rename newName) id
      (fun model => (modify (·.addInterface key model) : Build PUnit)) :=
  changing (fun _ _ => rfl) fun model _ _ => Session.addInterface_rename hRename key model

end OneToOne

theorem enqueue :
    Equivariant newName (Request.rename newName) id
      (fun request => (modify (·.enqueue request) : Build PUnit)) :=
  changing (fun _ _ => rfl) fun request _ _ => Session.enqueue_rename request

end Equivariant

variable {task : Task}

theorem agrees_request (inquiry : Inquiry) :
    Agrees newName newName (request task inquiry) (request task inquiry) := by
  unfold request
  apply Agrees.bind (.ofExcept _)
  intro collected
  apply Agrees.bind (.requestName _ _)
  apply Equivariant.bind
  · exact Equivariant.enqueue.comp _ fun _ => rfl
  · exact .pure fun _ => rfl

theorem agrees_requestField (merged : MergedField) (declared : SchemaType)
    (overridden : List MergedField) :
    Agrees newName newName (requestField task merged declared overridden)
      (requestField task merged declared overridden) := by
  unfold requestField
  apply Agrees.look
  intro session names
  rw [Session.lookup_requested_rename]
  cases session.requested.lookup merged.origin with
  | some name => exact .pure rfl
  | none => exact .look fun _ _ => agrees_request _

theorem agrees_fieldModel (merged : MergedField) (overridden : List MergedField) :
    Agrees newName (FieldModel.rename newName) (fieldModel task merged overridden)
      (fieldModel task merged overridden) := by
  unfold fieldModel
  dsimp only
  have hDeclare : Equivariant newName (FieldTarget.rename newName) (FieldModel.rename newName)
      fun target => (Pure.pure (⟨merged.field.name, target, merged.responseKey,
        merged.field.annotation⟩ : FieldModel) : Build FieldModel) := .pure fun _ => rfl
  split
  · exact .bind (.throw _) hDeclare
  · split
    · exact .bind (.map (agrees_requestField _ _ _) fun _ => rfl) hDeclare
    · split
      · exact .bind (.throw _) hDeclare
      · exact .bind (.pure rfl) hDeclare

theorem agrees_requestOperation (operation : Operation) :
    Agrees newName id (requestOperation task operation) (requestOperation task operation) := by
  unfold requestOperation
  dsimp only
  split
  · exact .throw _
  · exact .bind (agrees_request _) (.pure fun _ => rfl)

theorem agrees_requestOperations (operations : List Operation) :
    Agrees newName id (requestOperations task operations)
      (requestOperations task operations) := by
  induction operations with
  | nil => exact .pure rfl
  | cons operation rest ih => exact .bind (agrees_requestOperation operation) (.const ih)

theorem equivariant_declareFields (fields : List MergedField) :
    Equivariant newName (List.map (Prod.map (InterfaceModel.rename newName) id))
      (List.map (FieldModel.rename newName)) (fun bases => declareFields task bases fields) := by
  induction fields with
  | nil => exact .pure fun _ => rfl
  | cons merged rest ih =>
      have hDeclare : ∀ overridden, Equivariant newName
          (List.map (Prod.map (InterfaceModel.rename newName) id))
          (List.map (FieldModel.rename newName)) fun bases => (do
            let field ← fieldModel task merged overridden
            return field :: (← declareFields task bases rest) : Build (List FieldModel)) := by
        intro overridden
        apply Equivariant.bind (.const (agrees_fieldModel merged overridden))
        apply Equivariant.bind (ih.comp Prod.fst fun _ => rfl)
        exact .pure fun _ => rfl
      intro bases
      have hOverridden : (bases.map (Prod.map (InterfaceModel.rename newName) id)).filterMap
          (fun base => base.2.find? (·.responseKey == merged.responseKey)) =
          bases.filterMap fun base => base.2.find? (·.responseKey == merged.responseKey) := by
        rw [List.filterMap_map]
        rfl
      have hExposed : (bases.map (Prod.map (InterfaceModel.rename newName) id)).all
          (fun base => !base.1.fieldNames.contains merged.responseKey) =
          bases.all fun base => !base.1.fieldNames.contains merged.responseKey := by
        simp [List.all_map, Function.comp_def]
      unfold declareFields
      dsimp only
      rw [hOverridden, hExposed]
      split
      · exact hDeclare [] bases
      · split
        · exact hDeclare _ bases
        · exact ih bases

theorem agrees_synthesizeEach {path : ModelPath} {trees : List FragmentTree}
    (hEach : ∀ tree ∈ trees, Agrees newName (InterfaceModel.rename newName)
      (synthesize task path tree) (synthesize task path tree)) :
    Agrees newName (List.map (Prod.map (InterfaceModel.rename newName) id))
      (synthesizeEach task path trees) (synthesizeEach task path trees) := by
  induction trees with
  | nil =>
      rw [synthesizeEach]
      exact .pure rfl
  | cons tree rest ih =>
      rw [synthesizeEach]
      apply Agrees.bind (hEach tree List.mem_cons_self)
      apply Equivariant.bind (.const (.ofExcept _))
      apply Equivariant.bind
      · exact .const (ih fun other hOther => hEach other (List.mem_cons_of_mem _ hOther))
      · exact .pure fun _ => rfl

section OneToOne

variable (hRename : Function.Injective newName)

include hRename

theorem equivariant_assemble (path : ModelPath) (tree : FragmentTree) :
    Equivariant newName (List.map (Prod.map (InterfaceModel.rename newName) id))
      (InterfaceModel.rename newName) (fun bases => assemble task path tree bases) := by
  have hModel : ∀ (bases : List (InterfaceModel × List MergedField)) fields name,
      InterfaceModel.mk (fields.map (FieldModel.rename newName)) tree.condition.name
        (distinctByName ((bases.map (Prod.map (InterfaceModel.rename newName) id)).map Prod.fst))
        (newName name) =
      (InterfaceModel.mk fields tree.condition.name (distinctByName (bases.map Prod.fst))
        name).rename newName := by
    intro bases fields name
    rw [InterfaceModel.rename_mk, ← distinctByName_map hRename, List.map_map, List.map_map]
    rfl
  unfold assemble
  apply Equivariant.bind (.const (.ofExcept _))
  apply Equivariant.bind
  · intro pair
    exact equivariant_declareFields pair.2 pair.1
  apply Equivariant.bind (.const (.requestName _ _))
  apply Equivariant.bind
  · exact (Equivariant.addInterface hRename tree.key).comp _ fun found =>
      hModel found.1.1.1 found.1.2 found.2
  · exact .pure fun found => hModel found.1.1.1.1 found.1.1.2 found.1.2

theorem agrees_synthesize (path : ModelPath) (tree : FragmentTree) :
    Agrees newName (InterfaceModel.rename newName) (synthesize task path tree)
      (synthesize task path tree) := by
  induction tree using FragmentTree.induct with
  | node tree ih =>
      rw [← tree.eta, synthesize]
      apply Agrees.look
      intro session names
      rw [Session.interface?_rename]
      cases session.interface? _ with
      | some model => exact .pure rfl
      | none => exact .bind (agrees_synthesizeEach ih) (equivariant_assemble hRename path _)

theorem agrees_extraInterfaces (path : ModelPath) (represented : List SchemaType)
    (trees : List FragmentTree) :
    Agrees newName (List.map (InterfaceModel.rename newName))
      (extraInterfaces task path represented trees)
      (extraInterfaces task path represented trees) := by
  induction trees with
  | nil => exact .pure rfl
  | cons tree rest ih =>
      rw [extraInterfaces]
      split
      · apply Agrees.bind (agrees_synthesize hRename path tree)
        exact .bind (.const ih) (.pure fun _ => rfl)
      · exact ih

theorem equivariant_caseClass (request : Request) (case : Collected)
    (represented : List SchemaType) (type proposed : String) :
    Equivariant newName (InterfaceModel.rename newName) (ClassModel.rename newName)
      (fun returnType => caseClass task request returnType case represented type proposed) := by
  have hModel : ∀ (returnType : InterfaceModel) more name,
      ClassModel.mk type (distinctByName (returnType.rename newName ::
        more.map (InterfaceModel.rename newName))) (newName name) =
      (ClassModel.mk type (distinctByName (returnType :: more)) name).rename newName := by
    intro returnType more name
    rw [← List.map_cons, distinctByName_map hRename]
    rfl
  unfold caseClass
  apply Equivariant.bind (.const (agrees_extraInterfaces hRename _ _ _))
  apply Equivariant.bind (.const (.requestName _ _))
  apply Equivariant.bind
  · exact (Equivariant.register hRename).comp _ fun found =>
      congrArg Model.class (hModel found.1.1 found.1.2 found.2)
  · exact .pure fun found => hModel found.1.1.1 found.1.1.2 found.1.2

theorem equivariant_resultParser (request : Request) {given : γ → γ}
    {returnType : γ → InterfaceModel} {classes : γ → List ClassModel}
    {discriminators : γ → OrderedMap String}
    (hReturn : ∀ c, returnType (given c) = (returnType c).rename newName)
    (hClasses : ∀ c, classes (given c) = (classes c).map (ClassModel.rename newName))
    (hDiscriminators : ∀ c, discriminators (given c) =
      (discriminators c).mapEntries id newName) :
    Equivariant newName given (SelectedModel.rename newName)
      (fun c => resultParser task request (returnType c) (classes c) (discriminators c)) := by
  unfold resultParser
  apply Equivariant.bind (.const (.requestName _ _))
  apply Equivariant.bind
  · refine (Equivariant.register hRename).comp _ fun found => ?_
    simp [hReturn, hClasses, hDiscriminators, Model.rename, ParserModel.rename]
  · refine .pure fun found => ?_
    simp [hReturn, hClasses, hDiscriminators, SelectedModel.rename, ParserModel.rename]

theorem agrees_modelObject (request : Request) (cases : List Collected) :
    Agrees newName (SelectedModel.rename newName) (modelObject task request cases)
      (modelObject task request cases) := by
  unfold modelObject
  split
  · apply Agrees.bind (agrees_synthesize hRename _ _)
    apply Equivariant.bind (equivariant_caseClass hRename _ _ _ _ _)
    exact equivariant_resultParser hRename request (fun _ => rfl) (fun _ => rfl) fun _ => rfl
  · exact .throw _

theorem equivariant_caseClasses (request : Request) (cases : List Collected) :
    Equivariant newName (InterfaceModel.rename newName)
      (List.map (Prod.map id (ClassModel.rename newName)))
      (fun returnType => caseClasses task request returnType cases) := by
  induction cases with
  | nil => exact .pure fun _ => rfl
  | cons case rest ih =>
      unfold caseClasses
      apply Equivariant.bind (equivariant_caseClass hRename _ _ _ _ _)
      apply Equivariant.bind (ih.comp Prod.fst fun _ => rfl)
      exact .pure fun _ => rfl

/-- The models of a lone case, whatever possible types it stands for. -/
theorem equivariant_loneCase (request : Request) (case : Collected)
    (possible : List SchemaType) (type : String) :
    Equivariant newName (InterfaceModel.rename newName) (SelectedModel.rename newName)
      fun returnType => (do
        let model ← caseClass task request returnType case possible type request.modelName
        resultParser task request returnType [model]
          (.ofList (possible.map fun type => (type.name, model.name)))) := by
  apply Equivariant.bind (equivariant_caseClass hRename _ _ _ _ _)
  refine equivariant_resultParser hRename request (fun _ => rfl) (fun _ => rfl) fun found => ?_
  rw [OrderedMap.mapEntries_ofList Function.injective_id, List.map_map]
  rfl

theorem equivariant_eachCase (request : Request) (cases : List Collected) :
    Equivariant newName (InterfaceModel.rename newName) (SelectedModel.rename newName)
      fun returnType => (do
        let classes ← caseClasses task request returnType cases
        resultParser task request returnType (classes.map Prod.snd)
          (.ofList (classes.map fun entry => (entry.1, entry.2.name)))) := by
  apply Equivariant.bind (equivariant_caseClasses hRename _ _)
  refine equivariant_resultParser hRename request (fun _ => rfl) (fun found => ?_) fun found => ?_
  · simp [Function.comp_def]
  · rw [OrderedMap.mapEntries_ofList Function.injective_id]
    simp [Function.comp_def, ClassModel.rename]

theorem agrees_modelAbstract (request : Request) (cases : List Collected) :
    Agrees newName (SelectedModel.rename newName) (modelAbstract task request cases)
      (modelAbstract task request cases) := by
  unfold modelAbstract
  apply Agrees.bind (agrees_synthesize hRename _ _)
  intro returnType
  dsimp only
  split
  · exact equivariant_loneCase hRename request _ _ _ returnType
  · exact equivariant_eachCase hRename request _ returnType

theorem agrees_model (request : Request) :
    Agrees newName (SelectedModel.rename newName) (model task request) (model task request) := by
  unfold model
  apply Agrees.bind (.ofExcept _)
  intro cases
  split
  · exact agrees_modelObject hRename request cases
  · exact agrees_modelAbstract hRename request cases
  · exact agrees_modelAbstract hRename request cases
  · exact .throw _

theorem agrees_process (request : Request) :
    Agrees newName id (process task request) (process task request) := by
  unfold process
  apply Agrees.bind (agrees_model hRename request)
  intro selected
  cases request.operation with
  | none => exact .pure rfl
  | some operation =>
      have hRegister : Equivariant newName (SelectedModel.rename newName) id
          fun selected => (do
            let name ← requestName (.leaf (.operation operation.location))
              (request.modelName ++ operation.kind.defaultRoot)
            register (.operation ⟨operation.kind, name, selected.parser, selected.returnType,
              operation.rootType, operation.vars⟩)) := by
        apply Equivariant.bind (.const (.requestName _ _))
        exact (Equivariant.register hRename).comp _ fun _ => rfl
      exact hRegister selected

end OneToOne

theorem caseClasses_rename (request : Request) (returnType : InterfaceModel)
    (cases : List Collected) :
    caseClasses task (request.rename newName) returnType cases =
      caseClasses task request returnType cases := by
  induction cases with
  | nil => rfl
  | cons case rest ih =>
      rw [caseClasses, caseClasses, ih]
      rfl

/-- The name that a request was given is not looked at when the request is taken up. -/
theorem process_rename (request : Request) :
    process task (request.rename newName) = process task request := by
  have hAbstract : ∀ cases, modelAbstract task (request.rename newName) cases =
      modelAbstract task request cases := by
    intro cases
    unfold modelAbstract
    simp only [caseClasses_rename]
    rfl
  unfold process model
  simp only [hAbstract]
  rfl

section OneToOne

variable (hRename : Function.Injective newName)

include hRename

theorem asksNames_processAll (requests : List Request) :
    AsksNames (processAll task requests) := by
  induction requests with
  | nil => exact .of_eq fun _ => rfl
  | cons request rest ih => exact .bind (agrees_process hRename request).asks fun _ => ih

theorem equivariant_processAll :
    Equivariant newName (List.map (Request.rename newName)) id (processAll task) := by
  intro requests
  induction requests with
  | nil => exact .pure rfl
  | cons request rest ih =>
      rw [List.map_cons, processAll, processAll, process_rename]
      exact (agrees_process hRename request).then (fun _ => ih)
        fun _ => asksNames_processAll hRename _

theorem agrees_drain (rounds : Nat) :
    Agrees newName id (drain task rounds) (drain task rounds) := by
  induction rounds with
  | zero => exact .pure rfl
  | succ rounds ih =>
      have hRound : Equivariant newName (List.map (Request.rename newName)) id
          fun pending => (do
            modify ({ · with pending := [] })
            processAll task pending
            drain task rounds : Build Unit) := by
        apply Equivariant.bind
        · exact .changing (fun _ _ => rfl) fun _ _ _ => rfl
        apply Equivariant.bind ((equivariant_processAll hRename).comp Prod.fst fun _ => rfl)
        exact .const ih
      unfold drain
      apply Agrees.look
      intro session names
      rw [show (session.rename newName names).pending =
        session.pending.map (Request.rename newName) from rfl]
      cases session.pending with
      | nil => exact .pure rfl
      | cons request rest => exact hRound (request :: rest)

theorem agrees_compile (operations : List Operation) :
    Agrees newName (Graph.rename newName) (Build.compile task operations)
      (Build.compile task operations) := by
  unfold Build.compile
  apply Agrees.bind (agrees_requestOperations operations)
  intro _
  apply Agrees.bind (agrees_drain hRename _)
  intro _
  exact .look fun _ _ => .pure rfl

end OneToOne

end Build

end ResponseModels
