import ResponseModels.Proofs.FieldModels
import ResponseModels.Proofs.Selection.Confinement
import ResponseModels.Proofs.SpreadCycles

/-! Fragments that no operation leads to are of no account. Two documents that differ in nothing
else are compiled step by step in the same way: whatever a step looks up in the document was spread
by selections that are reached, and the trees and requests that it leaves behind hold no others. -/
namespace ResponseModels

open GraphQL

/-- The same task with another document. -/
def Task.on (task : Task) (other : Document) : Task := { task with document := other }

variable {task : Task} {document other : Document} {tree : FragmentTree} {path : ModelPath}

/-- What is selected, and the tree that it is typed by, spread nothing but what is reached. -/
structure Request.Confined (document : Document) (request : Request) : Prop where
  selections : document.Confines request.selections
  returnTree : request.returnTree.Confined document

/-- So it is with all trees that were noted and all requests that wait. -/
structure Session.Confined (document : Document) (session : Session) : Prop where
  returned : ∀ entry ∈ session.returnTrees, entry.2.Confined document
  waiting : ∀ request ∈ session.pending, request.Confined document

theorem Session.Confined.enqueue {session : Session} {request : Request}
    (h : session.Confined document) (hRequest : request.Confined document) :
    (session.enqueue request).Confined document := by
  constructor
  · intro entry hEntry
    rcases List.mem_cons.mp hEntry with rfl | hOld
    · exact hRequest.returnTree
    · exact h.returned entry hOld
  · intro waiting hWaiting
    rcases List.mem_append.mp hWaiting with hOld | hNew
    · exact h.waiting waiting hOld
    · rwa [List.mem_singleton.mp hNew]

/-- From a session of that kind both steps go the same way, to another session of that kind. -/
def Build.Coincides {α : Type} (document : Document) (step twin : Build α) : Prop :=
  ∀ before : Session, before.Confined document → twin.run before = step.run before ∧
    ∀ value after, step.Yields before value after → after.Confined document

namespace Build.Coincides

variable {α β : Type}

/-- A step that leaves trees and requests alone. -/
theorem keeping {step : Build α} (h : ∀ before value after, step.Yields before value after →
    after.returnTrees = before.returnTrees ∧ after.pending = before.pending) :
    Coincides document step step := by
  refine fun before hBefore => ⟨rfl, fun value after hYields => ?_⟩
  obtain ⟨hTrees, hPending⟩ := h before value after hYields
  exact ⟨hTrees ▸ hBefore.returned, hPending ▸ hBefore.waiting⟩

theorem pure (value : α) : Coincides document (Pure.pure value) (Pure.pure value) :=
  keeping fun before result after h => by
    rw [yields_pure] at h
    exact ⟨by rw [h.2], by rw [h.2]⟩

theorem throw (cause : ModelError) :
    Coincides document (MonadExcept.throw cause : Build α) (MonadExcept.throw cause) :=
  keeping fun _ _ _ h => absurd h (yields_throw _ _)

theorem requestName (key : OriginKey) (proposed : String) :
    Coincides document (Build.requestName key proposed) (Build.requestName key proposed) :=
  keeping fun before name after h => by
    rw [yields_requestName] at h
    exact ⟨by rw [h.2], by rw [h.2]⟩

theorem register (model : Model) :
    Coincides document (Build.register model) (Build.register model) :=
  keeping fun before result after h => by
    rw [yields_register] at h
    exact ⟨by rw [h]; rfl, by rw [h]; rfl⟩

theorem bind {step twin : Build α} {next next' : α → Build β}
    (hStep : Coincides document step twin)
    (hNext : ∀ value, Coincides document (next value) (next' value)) :
    Coincides document (step >>= next) (twin >>= next') := by
  intro before hBefore
  obtain ⟨hSame, hKept⟩ := hStep before hBefore
  constructor
  · rw [run_bind, run_bind, hSame]
    rcases hRun : step.run before with ⟨outcome, middle⟩
    cases outcome with
    | error cause => rfl
    | ok value => exact (hNext value middle (hKept value middle hRun)).1
  · intro result after hYields
    rw [yields_bind] at hYields
    obtain ⟨value, middle, hFirst, hSecond⟩ := hYields
    exact (hNext value middle (hKept value middle hFirst)).2 result after hSecond

theorem map {step twin : Build α} (h : Coincides document step twin) (f : α → β) :
    Coincides document (f <$> step) (f <$> twin) := by
  rw [map_eq_pure_bind, map_eq_pure_bind]
  exact bind h fun _ => pure _

/-- An outcome that is the same for both may be drawn on. -/
theorem ofExcept_bind {outcome outcome' : Except ModelError α} {next next' : α → Build β}
    (hSame : outcome' = outcome)
    (hNext : ∀ value, outcome = .ok value → Coincides document (next value) (next' value)) :
    Coincides document (ofExcept outcome >>= next) (ofExcept outcome' >>= next') := by
  subst hSame
  cases outcome' with
  | error cause => exact throw cause
  | ok value => exact hNext value rfl

/-- A look at the session finds one of that kind. -/
theorem look {next next' : Session → Build α}
    (hNext : ∀ session : Session, session.Confined document →
      Coincides document (next session) (next' session)) :
    Coincides document (get >>= next) (get >>= next') :=
  fun before hBefore => hNext before hBefore before hBefore

theorem modify {change : Session → Session}
    (hChange : ∀ session : Session, session.Confined document →
      (change session).Confined document) :
    Coincides document (modify change : Build PUnit) (modify change) := by
  refine fun before hBefore => ⟨rfl, fun value after hYields => ?_⟩
  rw [yields_modify] at hYields
  exact hYields ▸ hChange before hBefore

theorem resultParser (task : Task) (request : Request) (returnType : InterfaceModel)
    (classes : List ClassModel) (discriminators : OrderedMap String) :
    Coincides document (Build.resultParser task request returnType classes discriminators)
      (Build.resultParser (task.on other) request returnType classes discriminators) := by
  unfold Build.resultParser
  exact bind (requestName _ _) fun name => bind (register _) fun _ => pure _

theorem synthesizeEach (hSame : task.document.Resembles other) {trees : List FragmentTree}
    (hEach : ∀ tree ∈ trees, Coincides task.document (Build.synthesize task path tree)
      (Build.synthesize (task.on other) path tree)) :
    Coincides task.document (Build.synthesizeEach task path trees)
      (Build.synthesizeEach (task.on other) path trees) := by
  induction trees with
  | nil =>
      rw [Build.synthesizeEach, Build.synthesizeEach]
      exact pure _
  | cons tree rest ih =>
      rw [Build.synthesizeEach, Build.synthesizeEach]
      refine bind (hEach tree List.mem_cons_self) fun model => ?_
      refine ofExcept_bind (congrFun (congrFun (Setting.treeFields_on hSame) path) tree) ?_
      intro fields _
      exact bind (ih fun later hLater => hEach later (List.mem_cons_of_mem _ hLater))
        fun _ => pure _

section Twins

variable (hDocument : task.document.Accepted) (hOther : other.Accepted)
  (hSame : task.document.Resembles other)

include hDocument hOther hSame

/-- Asking for selections that are confined, with bases that are. -/
theorem request {inquiry : Inquiry} (hSelections : task.document.Confines inquiry.selections)
    (hBases : ∀ base ∈ inquiry.bases, base.Confined task.document) :
    Coincides task.document (Build.request task inquiry)
      (Build.request (task.on other) inquiry) := by
  unfold Build.request
  refine ofExcept_bind (Setting.collectIn_on hSame hDocument hOther hSelections _ _ _) ?_
  intro collected hCollected
  refine bind (requestName _ _) fun name => bind (modify fun session hSession => ?_) fun _ => pure _
  refine hSession.enqueue ⟨hSelections, ?_⟩
  refine FragmentTree.Confined.within ?_ (FragmentTree.within_hoist _ _)
  refine FragmentTree.confined_iff.mpr ⟨hSelections, fun child hChild => ?_⟩
  rcases mem_of_mem_addTrees hChild with hFragment | hBase
  · exact (Setting.stems_of_collectIn hCollected hFragment).confined hSelections
  · exact hBases child hBase

theorem requestField {merged : MergedField} (hMerged : task.document.Confines merged.nested)
    (declared : SchemaType) (overridden : List MergedField) :
    Coincides task.document (Build.requestField task merged declared overridden)
      (Build.requestField (task.on other) merged declared overridden) := by
  unfold Build.requestField
  refine look fun session _ => ?_
  split
  · exact pure _
  · refine look fun session hSession => request hDocument hOther hSame hMerged ?_
    intro base hBase
    rcases mem_of_mem_addTrees hBase with hNone | hBase
    · cases hNone
    · obtain ⟨earlier, _, hFound⟩ := List.mem_filterMap.mp hBase
      exact hSession.returned _ (Association.mem_of_lookup hFound)

theorem fieldModel {merged : MergedField} (hMerged : task.document.Confines merged.nested)
    (overridden : List MergedField) :
    Coincides task.document (Build.fieldModel task merged overridden)
      (Build.fieldModel (task.on other) merged overridden) := by
  have hType : innermostType? (task.on other) merged = innermostType? task merged := rfl
  unfold Build.fieldModel
  dsimp only
  rw [hType]
  split
  · exact bind (throw _) fun _ => pure _
  · split
    · exact bind (map (requestField hDocument hOther hSame hMerged _ overridden) _) fun _ => pure _
    · split
      · exact bind (throw _) fun _ => pure _
      · exact bind (pure _) fun _ => pure _

theorem declareFields (bases : List (InterfaceModel × List MergedField))
    {fields : List MergedField}
    (hFields : ∀ merged ∈ fields, task.document.Confines merged.nested) :
    Coincides task.document (Build.declareFields task bases fields)
      (Build.declareFields (task.on other) bases fields) := by
  induction fields with
  | nil => exact pure _
  | cons merged rest ih =>
      have hRest := ih fun later hLater => hFields later (List.mem_cons_of_mem _ hLater)
      have hDeclare : ∀ overridden, Coincides task.document
          (do
            let field ← Build.fieldModel task merged overridden
            return field :: (← Build.declareFields task bases rest))
          (do
            let field ← Build.fieldModel (task.on other) merged overridden
            return field :: (← Build.declareFields (task.on other) bases rest)) := by
        intro overridden
        have hMerged := hFields merged List.mem_cons_self
        exact bind (fieldModel hDocument hOther hSame hMerged overridden) fun field =>
          bind hRest fun _ => pure _
      have hAgain : ∀ overridden,
          isRedeclared (task.on other) merged overridden = isRedeclared task merged overridden :=
        fun _ => rfl
      unfold Build.declareFields
      split
      · exact hDeclare []
      · dsimp only
        rw [hAgain]
        split
        · exact hDeclare _
        · exact hRest

theorem assemble (hTree : tree.Confined task.document)
    (bases : List (InterfaceModel × List MergedField)) :
    Coincides task.document (Build.assemble task path tree bases)
      (Build.assemble (task.on other) path tree bases) := by
  unfold Build.assemble
  refine ofExcept_bind (congrFun (congrFun (Setting.treeFields_on hSame) path) tree) ?_
  intro fields hFields
  refine bind (declareFields hDocument hOther hSame bases fun merged hMerged =>
    Setting.confines_of_treeFields hTree hFields hMerged) fun declared => ?_
  refine bind (requestName _ _) fun name => bind (modify fun session hSession => ?_) fun _ => pure _
  exact ⟨hSession.returned, hSession.waiting⟩

theorem synthesize (hTree : tree.Confined task.document) :
    Coincides task.document (Build.synthesize task path tree)
      (Build.synthesize (task.on other) path tree) := by
  induction tree using FragmentTree.induct with
  | node tree ih =>
      have hChildren := (FragmentTree.confined_iff.mp hTree).2
      rw [← tree.eta, Build.synthesize, Build.synthesize, tree.eta]
      refine look fun session _ => ?_
      split
      · exact pure _
      · exact bind (synthesizeEach hSame fun child hChild =>
          ih child hChild (hChildren child hChild)) fun bases =>
            assemble hDocument hOther hSame hTree bases

theorem extraInterfaces {trees : List FragmentTree} (represented : List SchemaType)
    (hTrees : ∀ tree ∈ trees, tree.Confined task.document) :
    Coincides task.document (Build.extraInterfaces task path represented trees)
      (Build.extraInterfaces (task.on other) path represented trees) := by
  induction trees with
  | nil => exact pure _
  | cons tree rest ih =>
      have hRest := ih fun later hLater => hTrees later (List.mem_cons_of_mem _ hLater)
      have hTree : Coincides task.document (Build.synthesize task path tree)
          (Build.synthesize (task.on other) path tree) :=
        synthesize hDocument hOther hSame (hTrees tree List.mem_cons_self)
      have hApplies : (task.on other).schema = task.schema := rfl
      unfold Build.extraInterfaces
      rw [hApplies]
      split
      · exact bind hTree fun _ => bind hRest fun _ => pure _
      · exact hRest

theorem caseClass {request : Request} {case : Collected} (returnType : InterfaceModel)
    (hCase : ∀ tree ∈ case.fragments, tree.Confined task.document)
    (represented : List SchemaType) (type proposed : String) :
    Coincides task.document
      (Build.caseClass task request returnType case represented type proposed)
      (Build.caseClass (task.on other) request returnType case represented type proposed) := by
  have hExtras : ∀ tree ∈ request.caseExtras case, tree.Confined task.document := by
    intro tree hTree
    obtain ⟨fragment, hFragment, hWithin⟩ := Request.within_of_mem_caseExtras hTree
    exact (hCase fragment hFragment).within hWithin
  unfold Build.caseClass
  refine bind (extraInterfaces hDocument hOther hSame represented hExtras) fun more => ?_
  exact bind (requestName _ _) fun name => bind (register _) fun _ => pure _

theorem caseClasses {request : Request} {cases : List Collected} (returnType : InterfaceModel)
    (hCases : ∀ case ∈ cases, ∀ tree ∈ case.fragments, tree.Confined task.document) :
    Coincides task.document (Build.caseClasses task request returnType cases)
      (Build.caseClasses (task.on other) request returnType cases) := by
  induction cases with
  | nil => exact pure _
  | cons case rest ih =>
      have hRest := ih fun later hLater => hCases later (List.mem_cons_of_mem _ hLater)
      have hFirst := hCases case List.mem_cons_self
      unfold Build.caseClasses
      exact bind (caseClass hDocument hOther hSame returnType hFirst _ _ _) fun model =>
        bind hRest fun _ => pure _

theorem modelObject {request : Request} {cases : List Collected}
    (hReturn : request.returnTree.Confined task.document)
    (hCases : ∀ case ∈ cases, ∀ tree ∈ case.fragments, tree.Confined task.document) :
    Coincides task.document (Build.modelObject task request cases)
      (Build.modelObject (task.on other) request cases) := by
  unfold Build.modelObject
  split
  · rename_i case
    refine bind (synthesize hDocument hOther hSame hReturn) fun returnType => ?_
    exact bind (caseClass hDocument hOther hSame returnType
      (hCases case (List.mem_singleton.mpr rfl)) _ _ _) fun model => resultParser _ _ _ _ _
  · exact throw _

theorem modelAbstract {request : Request} {cases : List Collected}
    (hReturn : request.returnTree.Confined task.document)
    (hCases : ∀ case ∈ cases, ∀ tree ∈ case.fragments, tree.Confined task.document) :
    Coincides task.document (Build.modelAbstract task request cases)
      (Build.modelAbstract (task.on other) request cases) := by
  have hConfig : (task.on other).config = task.config := rfl
  unfold Build.modelAbstract
  rw [hConfig]
  refine bind (synthesize hDocument hOther hSame hReturn) fun returnType => ?_
  have hKept : (if task.config.collapseCases then collapseCases cases else cases) ⊆ cases := by
    rcases collapse_cases task.config.collapseCases cases with hAll | ⟨first, rest, hSplit, _, hOne⟩
    · rw [hAll]
      exact List.Subset.refl _
    · rw [hOne, hSplit]
      exact List.cons_subset.mpr ⟨List.mem_cons_self, List.nil_subset _⟩
  dsimp only
  split
  · rename_i case hOne
    have hCase := hCases case (hKept (hOne ▸ List.mem_singleton.mpr rfl))
    exact bind (caseClass hDocument hOther hSame returnType hCase _ _ _) fun model =>
      resultParser _ _ _ _ _
  · exact bind (caseClasses hDocument hOther hSame returnType fun case hCase =>
      hCases case (hKept hCase)) fun classes => resultParser _ _ _ _ _

theorem model {request : Request} (hRequest : request.Confined task.document) :
    Coincides task.document (Build.model task request) (Build.model (task.on other) request) := by
  unfold Build.model Build.requestCases
  refine ofExcept_bind (Setting.typeCases_on hSame hDocument hOther hRequest.selections _ _) ?_
  intro cases hCases
  have hTrees : ∀ case ∈ cases, ∀ tree ∈ case.fragments, tree.Confined task.document := by
    intro case hCase tree hTree
    obtain ⟨type, hCollected⟩ := Setting.exists_collectIn_of_typeCases hCases hCase
    exact (Setting.stems_of_collectIn hCollected hTree).confined hRequest.selections
  split
  · exact modelObject hDocument hOther hSame hRequest.returnTree hTrees
  · exact modelAbstract hDocument hOther hSame hRequest.returnTree hTrees
  · exact modelAbstract hDocument hOther hSame hRequest.returnTree hTrees
  · exact throw _

theorem process {request : Request} (hRequest : request.Confined task.document) :
    Coincides task.document (Build.process task request)
      (Build.process (task.on other) request) := by
  unfold Build.process
  refine bind (model hDocument hOther hSame hRequest) fun selected => ?_
  split
  · exact pure _
  · exact bind (requestName _ _) fun name => register _

theorem processAll {requests : List Request}
    (hRequests : ∀ request ∈ requests, request.Confined task.document) :
    Coincides task.document (Build.processAll task requests)
      (Build.processAll (task.on other) requests) := by
  induction requests with
  | nil => exact pure _
  | cons request rest ih =>
      rw [Build.processAll, Build.processAll]
      exact bind (process hDocument hOther hSame (hRequests request List.mem_cons_self)) fun _ =>
        ih fun later hLater => hRequests later (List.mem_cons_of_mem _ hLater)

/-- Round after round both take up the same requests. -/
theorem drain (rounds : Nat) :
    Coincides task.document (Build.drain task rounds) (Build.drain (task.on other) rounds) := by
  induction rounds with
  | zero => exact pure _
  | succ rounds ih =>
      rw [Build.drain, Build.drain]
      refine look fun session hSession => ?_
      split
      · exact pure _
      · refine bind (modify fun cleared hCleared => ⟨hCleared.returned, by simp⟩) fun _ => ?_
        exact bind (processAll hDocument hOther hSame hSession.waiting) fun _ => ih

theorem requestOperation {operation : Operation}
    (hOperation : operation ∈ task.document.operations) :
    Coincides task.document (Build.requestOperation task operation)
      (Build.requestOperation (task.on other) operation) := by
  have hLocate : (task.on other).document.locate = task.document.locate :=
    funext hSame.locate_eq
  have hSchema : (task.on other).schema = task.schema := rfl
  have hConfig : (task.on other).config = task.config := rfl
  unfold Build.requestOperation
  dsimp only
  rw [hLocate, hSchema, hConfig]
  split
  · exact throw _
  · exact bind (request hDocument hOther hSame (Document.confines_operation hOperation) (by simp))
      fun _ => pure _

theorem requestOperations {operations : List Operation}
    (hOperations : operations ⊆ task.document.operations) :
    Coincides task.document (Build.requestOperations task operations)
      (Build.requestOperations (task.on other) operations) := by
  induction operations with
  | nil => exact pure _
  | cons operation rest ih =>
      obtain ⟨hOperation, hRest⟩ := List.cons_subset.mp hOperations
      rw [Build.requestOperations, Build.requestOperations]
      exact bind (requestOperation hDocument hOther hSame hOperation) fun _ => ih hRest

theorem compile {operations : List Operation}
    (hOperations : operations ⊆ task.document.operations) :
    Coincides task.document (Build.compile task operations)
      (Build.compile (task.on other) operations) := by
  have hRounds : (task.on other).document.reachedCount = task.document.reachedCount :=
    hSame.reachedCount_eq hDocument hOther
  unfold Build.compile
  rw [hRounds]
  refine bind (requestOperations hDocument hOther hSame hOperations) fun _ => ?_
  exact bind (drain hDocument hOther hSame _) fun _ => look fun _ _ => pure _

end Twins

end Build.Coincides

theorem compileOperations_on (hDocument : task.document.Accepted) (hOther : other.Accepted)
    (hSame : task.document.Resembles other) (names : Names) {operations : List Operation}
    (hOperations : operations ⊆ task.document.operations) :
    compileOperations (task.on other) names operations =
      compileOperations task names operations := by
  have hStart : (Session.initial names).Confined task.document :=
    ⟨by simp [Session.initial], by simp [Session.initial]⟩
  have hRun := (Build.Coincides.compile hDocument hOther hSame hOperations _ hStart).1
  unfold compileOperations
  rw [hRun]

/-- Whatever else a document defines, it is compiled with the same outcome as one that has the same
operations and defines the same under every name that they lead to; and so is each operation. -/
theorem unreached_fragments_irrelevant (hDocument : task.document.Accepted)
    (hOther : other.Accepted) (hSame : task.document.Resembles other) (names : Names) :
    compile (task.on other) names = compile task names ∧
      ∀ name, compileOperation (task.on other) names name = compileOperation task names name := by
  have hOperations : (task.on other).document.operations = task.document.operations :=
    hSame.operations
  constructor
  · unfold compile
    rw [hOperations]
    exact compileOperations_on hDocument hOther hSame names (List.Subset.refl _)
  · intro name
    unfold compileOperation Document.operation?
    rw [hOperations]
    split
    · rename_i operation hFound
      exact compileOperations_on hDocument hOther hSame names
        (List.cons_subset.mpr ⟨List.mem_of_find?_eq_some hFound, List.nil_subset _⟩)
    · rfl

/-- A document that is given by its definitions. -/
theorem Document.accepted_byName {file : SourcePath} {definitions : List Fragment}
    {operations : List Operation} (hNames : (definitions.map Fragment.name).Nodup)
    (hFree : Cycle.find (byName definitions) = []) :
    (⟨file, byName definitions, operations⟩ : Document).Accepted := by
  have hOperations : operationsOf (operations.map .operation ++ definitions.map .fragment) =
      operations := by
    simp [operationsOf]
  have hFragments : fragmentsOf (operations.map .operation ++ definitions.map .fragment) =
      definitions := by
    simp [fragmentsOf]
  refine ⟨file, operations.map .operation ++ definitions.map .fragment, ?_⟩
  rw [ofItems, hFragments, hOperations, collectFragments_eq hNames, hFree]
  rfl

/-- Nothing is reached but what is spread somewhere. -/
theorem Document.Reached.mem_of_spread {names : List String} {name : String}
    (hOperations : ∀ operation ∈ document.operations,
      ∀ name ∈ Selection.spreadsAll operation.selections, name ∈ names)
    (hFragments : ∀ fragment ∈ document.fragments.values,
      ∀ name ∈ Selection.spreadsAll fragment.selections, name ∈ names)
    (h : document.Reached name) : name ∈ names := by
  cases h with
  | spread hOperation hName => exact hOperations _ hOperation _ hName
  | onward _ hFound hName => exact hFragments _ (Document.mem_values_of_fragment? hFound) _ hName

/-- Two queries with the given fragments, of which the second spreads one that is missing. -/
def strandedDocument (definitions : List Fragment) : Document :=
  ⟨⟨"queries.graphql"⟩, Document.byName definitions,
    [⟨.query, some "First", ⟨1, 1⟩, [], [.inline ⟨1, 3⟩ none [.spread ⟨1, 5⟩ "Both"]]⟩,
      ⟨.query, some "Second", ⟨2, 1⟩, [], [.field ⟨2, 3⟩ none "me" [.spread ⟨2, 5⟩ "Gone"]]⟩]⟩

/-- What the queries spread, directly or not. -/
def spreadFragments : List Fragment :=
  [⟨"Both", "HasMe", ⟨3, 1⟩, [.spread ⟨3, 3⟩ "One", .field ⟨3, 5⟩ none "me"
      [.spread ⟨3, 7⟩ "Other"]]⟩,
    ⟨"One", "HasMe", ⟨4, 1⟩, [.field ⟨4, 3⟩ none "me" [.field ⟨4, 5⟩ none "id" []]]⟩,
    ⟨"Other", "Node", ⟨5, 1⟩, [.field ⟨5, 3⟩ none "friend" [.field ⟨5, 5⟩ none "id" []]]⟩]

/-- The same in another order, behind fragments that nobody spreads: the first spreads the others
and one that is not defined, on a type that is not defined, and shares a place with another. -/
def strayFragments : List Fragment :=
  [⟨"Stray", "Nowhere", ⟨4, 1⟩, [.spread ⟨9, 3⟩ "Both", .spread ⟨9, 5⟩ "Astray",
      .spread ⟨9, 7⟩ "Lost"]⟩,
    ⟨"Astray", "User", ⟨9, 9⟩, [.field ⟨5, 3⟩ (some "id") "nothing" []]⟩] ++ spreadFragments.reverse

theorem stray_fragments_irrelevant :
    let stranded := friendTask.on (strandedDocument strayFragments)
    (strandedDocument spreadFragments).Resembles (strandedDocument strayFragments) ∧
      (∃ graph, (compileOperation stranded (.initial 9) "First").1 = .ok graph ∧
        graph.size = 16) ∧
      (compile stranded (.initial 9)).1 = .error (.undefinedFragment "Gone"
        (stranded.document.locate ⟨2, 5⟩) ((ModelPath.root "Second").child "me")) := by
  intro stranded
  have hDocument : (strandedDocument spreadFragments).Accepted :=
    Document.accepted_byName (by decide) (by decide +kernel)
  have hOther : (strandedDocument strayFragments).Accepted :=
    Document.accepted_byName (by decide) (by decide +kernel)
  have hSame : (strandedDocument spreadFragments).Resembles (strandedDocument strayFragments) := by
    refine ⟨rfl, rfl, fun name hReached => ?_⟩
    have hName : name ∈ ["Both", "Gone", "One", "Other"] :=
      hReached.mem_of_spread (by decide +kernel) (by decide +kernel)
    simp only [List.mem_cons, List.not_mem_nil, or_false] at hName
    rcases hName with rfl | rfl | rfl | rfl <;> rfl
  have hFirst : (compileOperation (friendTask.on (strandedDocument spreadFragments)) (.initial 9)
      "First").1.toOption.map Graph.size = some 16 := by
    decide +kernel
  have hAll : (compile (friendTask.on (strandedDocument spreadFragments)) (.initial 9)).1 =
      .error (.undefinedFragment "Gone" (stranded.document.locate ⟨2, 5⟩)
        ((ModelPath.root "Second").child "me")) := by
    decide +kernel
  have hStranded : (friendTask.on (strandedDocument spreadFragments)).document.Resembles
      (strandedDocument strayFragments) := hSame
  obtain ⟨hCompile, hEach⟩ :=
    unreached_fragments_irrelevant hDocument hOther hStranded (.initial 9)
  obtain ⟨graph, hGraph, hSize⟩ := Option.map_eq_some_iff.mp hFirst
  rw [Outcome.toOption_eq_some_iff, ← hEach "First"] at hGraph
  rw [← hCompile] at hAll
  exact ⟨hSame, ⟨graph, hGraph, hSize⟩, hAll⟩

end ResponseModels
