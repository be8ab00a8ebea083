import ResponseModels.Proofs.Run.Coherence
import ResponseModels.Proofs.Run.Rounds

/-! The sessions of a run are reachable, from the first operation that is asked for to the end.
Every interface on the way is made for a node that comes about in the session at that time. -/
namespace ResponseModels

open GraphQL

variable {task : Task} {names : Names} {operations : List Operation} {before after : Session}
  {request : Request} {path : ModelPath}

/-- A request that the session has a note of, for selections of the document. -/
structure Request.Noted (task : Task) (session : Session) (request : Request) : Prop where
  declared : task.toSetting.Knows request.declared
  nodes : request.selections ⊆ task.document.nodes
  returned : (Origin.selection request.locations, request.returnTree) ∈ session.returnTrees

theorem Request.Noted.mono (hExtends : before.Extends after) (h : request.Noted task before) :
    request.Noted task after :=
  ⟨h.declared, h.nodes, hExtends.returnTrees h.returned⟩

/-- The fragments that a case of the request has beyond its return tree come about. -/
theorem Request.Noted.arises (h : request.Noted task before) {case : Collected}
    (hCase : Sound.IsCase task.toSetting request case) {tree : FragmentTree}
    (hTree : tree ∈ request.caseExtras case) : Arises task.toSetting before tree := by
  obtain ⟨object, _, hCollected⟩ := hCase
  obtain ⟨fragment, hFragment, hWithin⟩ := Request.within_of_mem_caseExtras hTree
  exact .collected h.declared h.nodes hCollected hFragment hWithin

/-- The selection set of an operation is noted by the place of the operation. -/
theorem Build.requested_of_requestOperation {operation : Operation}
    (h : (requestOperation task operation).Yields before () after) :
    ∃ name, after.requested =
      (.selection [task.document.locate operation.position], name) :: before.requested := by
  obtain ⟨_, _, _, _, _, hRequest⟩ := yields_requestOperation h
  obtain ⟨request, _, hFulfilled, _, _, rfl⟩ := yields_request hRequest
  have hLocations : request.locations = [task.document.locate operation.position] :=
    hFulfilled.locations
  exact ⟨request.returnTypeName, by rw [← hLocations]; rfl⟩

namespace Session.Reachable

theorem requestName (h : before.Reachable task) {key : OriginKey} {proposed name : String}
    (hYields : (Build.requestName key proposed).Yields before name after) :
    after.Reachable task ∧ before.Extends after := by
  rw [Build.yields_requestName] at hYields
  obtain ⟨_, rfl⟩ := hYields
  exact ⟨h.named key proposed, .named before key proposed⟩

theorem synthesize (hSetting : task.toSetting.Admissible) (h : before.Reachable task)
    {tree : FragmentTree} (hTree : Arises task.toSetting before tree) {model : InterfaceModel}
    (hYields : (Build.synthesize task path tree).Yields before model after) :
    after.Reachable task ∧ before.Extends after := by
  obtain ⟨requests, hCoherent⟩ := h.coherent hSetting
  obtain ⟨_, _, hExtends, _⟩ := makesInterface hSetting tree hCoherent hTree hYields
  exact ⟨h.synthesized hTree hYields, hExtends⟩

theorem extraInterfaces (hSetting : task.toSetting.Admissible) (h : before.Reachable task)
    {represented : List SchemaType} {trees : List FragmentTree}
    (hTrees : ∀ tree ∈ trees, Arises task.toSetting before tree) {models : List InterfaceModel}
    (hYields : (Build.extraInterfaces task path represented trees).Yields before models after) :
    after.Reachable task ∧ before.Extends after := by
  induction trees generalizing before models with
  | nil =>
      rw [Build.extraInterfaces, Build.yields_pure] at hYields
      obtain ⟨rfl, rfl⟩ := hYields
      exact ⟨h, .refl _⟩
  | cons tree rest ih =>
      obtain ⟨hTree, hRest⟩ := List.forall_mem_cons.mp hTrees
      rcases Build.yields_extraInterfaces_cons hYields with
        ⟨_, model, middle, more, hModel, hMore, _⟩ | ⟨_, hYields⟩
      · obtain ⟨hMiddle, hExtends⟩ := h.synthesize hSetting hTree hModel
        obtain ⟨hAfter, hExtends'⟩ := ih hMiddle
          (fun other hOther => (hRest other hOther).mono hExtends) hMore
        exact ⟨hAfter, hExtends.trans hExtends'⟩
      · exact ih h hRest hYields

theorem caseClass (hSetting : task.toSetting.Admissible) (h : before.Reachable task)
    (hNoted : request.Noted task before) {case : Collected}
    (hCase : Sound.IsCase task.toSetting request case) {returnType : InterfaceModel}
    {represented : List SchemaType} {type proposed : String} {model : ClassModel}
    (hYields : (Build.caseClass task request returnType case represented type proposed).Yields
      before model after) :
    after.Reachable task ∧ before.Extends after := by
  obtain ⟨extras, middle, name, named, hExtras, hName, _, rfl⟩ := Build.yields_caseClass hYields
  obtain ⟨hMiddle, hExtends⟩ :=
    h.extraInterfaces hSetting (fun tree hTree => hNoted.arises hCase hTree) hExtras
  obtain ⟨hNamed, hExtends'⟩ := hMiddle.requestName hName
  exact ⟨hNamed.registered _, (hExtends.trans hExtends').trans (.registered named _)⟩

theorem caseClasses (hSetting : task.toSetting.Admissible) (h : before.Reachable task)
    (hNoted : request.Noted task before) {cases : List Collected}
    (hCases : ∀ case ∈ cases, Sound.IsCase task.toSetting request case)
    {returnType : InterfaceModel} {entries : List (String × ClassModel)}
    (hYields : (Build.caseClasses task request returnType cases).Yields before entries after) :
    after.Reachable task ∧ before.Extends after := by
  induction cases generalizing before entries with
  | nil =>
      rw [Build.caseClasses, Build.yields_pure] at hYields
      obtain ⟨rfl, rfl⟩ := hYields
      exact ⟨h, .refl _⟩
  | cons case rest ih =>
      obtain ⟨hCase, hRest⟩ := List.forall_mem_cons.mp hCases
      obtain ⟨model, middle, more, hModel, hMore, _⟩ := Build.yields_caseClasses_cons hYields
      obtain ⟨hMiddle, hExtends⟩ := h.caseClass hSetting hNoted hCase hModel
      obtain ⟨hAfter, hExtends'⟩ := ih hMiddle (hNoted.mono hExtends) hRest hMore
      exact ⟨hAfter, hExtends.trans hExtends'⟩

theorem resultParser (h : before.Reachable task) {returnType : InterfaceModel}
    {classes : List ClassModel} {discriminators : OrderedMap String} {selected : SelectedModel}
    (hYields : (Build.resultParser task request returnType classes discriminators).Yields before
      selected after) : after.Reachable task := by
  obtain ⟨_, _, named, hName, _, rfl⟩ := Build.yields_resultParser hYields
  exact (h.requestName hName).1.registered _

theorem model (hSetting : task.toSetting.Admissible) (h : before.Reachable task)
    (hNoted : request.Noted task before) {selected : SelectedModel}
    (hYields : (Build.model task request).Yields before selected after) :
    after.Reachable task := by
  obtain ⟨cases, hCases, hModels⟩ := Build.yields_model hYields
  obtain ⟨_, hEach⟩ := Setting.typeCases_eq_ok hSetting hCases
  have hIsCase := Sound.isCase_of_casesIn hEach
  have hReturned : Arises task.toSetting before request.returnTree :=
    .returned hNoted.returned (.self _)
  cases hModels with
  | lone hReturn hSplit _ hModel hParser =>
      obtain ⟨hMade, hExtends⟩ := h.synthesize hSetting hReturned hReturn
      obtain ⟨hClassed, _⟩ := hMade.caseClass hSetting (hNoted.mono hExtends)
        (hIsCase _ (hSplit ▸ List.mem_cons_self)) hModel
      exact hClassed.resultParser hParser
  | each hReturn hEntries hParser =>
      obtain ⟨hMade, hExtends⟩ := h.synthesize hSetting hReturned hReturn
      obtain ⟨hClassed, _⟩ := hMade.caseClasses hSetting (hNoted.mono hExtends) hIsCase hEntries
      exact hClassed.resultParser hParser

/-- Taking up a request. -/
theorem process (hSetting : task.toSetting.Admissible) (h : before.Reachable task)
    (hNoted : request.Noted task before)
    (hYields : (Build.process task request).Yields before () after) : after.Reachable task := by
  obtain ⟨selected, middle, hModel, hRest⟩ := Build.yields_process hYields
  have hMiddle := h.model hSetting hNoted hModel
  rcases hRest with ⟨_, rfl⟩ | ⟨_, _, _, named, _, hName, rfl⟩
  · exact hMiddle
  · exact (hMiddle.requestName hName).1.registered _

/-- Operations are asked for one after the other, none of them twice. -/
theorem requestOperations (hSetting : task.toSetting.Admissible) (done : List Operation)
    (hOperations : (done ++ operations).Sublist task.document.operations)
    (h : before.Reachable task)
    (hDone : ∀ operation ∈ task.document.operations, operation ∉ done →
      before.requested.lookup (.selection [task.document.locate operation.position]) = none)
    (hYields : (Build.requestOperations task operations).Yields before () after) :
    after.Reachable task := by
  induction operations generalizing done before with
  | nil =>
      rw [Build.requestOperations, Build.yields_pure] at hYields
      obtain ⟨_, rfl⟩ := hYields
      exact h
  | cons operation rest ih =>
      rw [Build.requestOperations, Build.yields_bind] at hYields
      obtain ⟨_, middle, hFirst, hRest⟩ := hYields
      have hMem : operation ∈ task.document.operations := hOperations.subset (by simp)
      have hPositions := hSetting.positions.nodup_operation_positions
      have hNew : operation ∉ done := by
        have hNodup := (List.Nodup.of_map _ hPositions).sublist hOperations
        intro hOld
        exact (List.nodup_append.mp hNodup).2.2 operation hOld operation List.mem_cons_self rfl
      have hMiddle : middle.Reachable task := h.operation hMem (hDone operation hMem hNew) hFirst
      refine ih (done ++ [operation]) (by simpa using hOperations) hMiddle ?_ hRest
      intro other hOther hLeft
      obtain ⟨name, hRequested⟩ := Build.requested_of_requestOperation hFirst
      have hDiffer : other ∉ done ∧ other ≠ operation := by simpa [not_or] using hLeft
      have hOrigin : (Origin.selection [task.document.locate other.position] ==
          .selection [task.document.locate operation.position]) = false := by
        rw [beq_eq_false_iff_ne]
        intro hSame
        injection hSame with hLocations
        injection hLocations with hLocation
        exact hDiffer.2
          (List.inj_on_of_nodup_map hPositions hOther hMem (Document.locate_inj hLocation))
      rw [hRequested, List.lookup_cons, hOrigin]
      exact hDone other hOther hDiffer.1

end Session.Reachable

variable {taken rest : List Request} {session : Session}

/-- The session of every stage is reachable. -/
theorem Stage.reachable (hStart : Startable task names operations)
    (h : Stage task names operations taken rest session) : session.Reachable task := by
  induction h with
  | start hYields =>
      exact Session.Reachable.requestOperations hStart.setting [] hStart.operations
        (.initial hStart.names) (fun _ _ _ => rfl) hYields
  | round _ ih => exact ih.queued []
  | @step taken rest request session next hStage hYields ih =>
      have hSound := (hStage.valid hStart).sound
      have hRequest : request ∈ taken ++ (request :: rest ++ session.pending) := by simp
      have hKnown := hSound.known hStart.setting request hRequest
      exact ih.process hStart.setting ⟨hKnown.declared, hKnown.nodes,
        Association.mem_of_lookup (hSound.lookup_returnTrees hRequest)⟩ hYields

end ResponseModels
