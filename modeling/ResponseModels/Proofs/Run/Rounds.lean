import ResponseModels.Proofs.Run.Progress
import ResponseModels.Proofs.Run.Stages

/-! The rounds of a run. Each takes up the requests that wait when it begins, and there are rounds
enough: a run that succeeds has taken up every request. -/
namespace ResponseModels

open GraphQL

variable {task : Task} {names : Names} {operations : List Operation}
  {taken requests : List Request} {session next : Session}

namespace Stage

/-- Taking up all requests of a round. -/
theorem processAll (h : Stage task names operations taken requests session)
    (hYields : (Build.processAll task requests).Yields session () next) :
    Stage task names operations (taken ++ requests) [] next := by
  induction requests generalizing taken session with
  | nil =>
      rw [Build.processAll, Build.yields_pure] at hYields
      obtain ⟨_, rfl⟩ := hYields
      rwa [List.append_nil]
  | cons request rest ih =>
      rw [Build.processAll, Build.yields_bind] at hYields
      obtain ⟨_, middle, hFirst, hRest⟩ := hYields
      simpa using ih (h.step hFirst) hRest

theorem drain {rounds : Nat} (h : Stage task names operations taken [] session)
    (hYields : (Build.drain task rounds).Yields session () next) :
    ∃ all, Stage task names operations all [] next := by
  induction rounds generalizing taken session with
  | zero =>
      rw [Build.drain, Build.yields_pure] at hYields
      obtain ⟨_, rfl⟩ := hYields
      exact ⟨taken, h⟩
  | succ rounds ih =>
      rw [Build.drain, Build.yields_get_bind] at hYields
      split at hYields
      · rw [Build.yields_pure] at hYields
        obtain ⟨_, rfl⟩ := hYields
        exact ⟨taken, h⟩
      · rw [Build.yields_bind] at hYields
        obtain ⟨_, cleared, hModify, hYields⟩ := hYields
        rw [Build.yields_modify] at hModify
        subst hModify
        rw [Build.yields_bind] at hYields
        obtain ⟨_, middle, hAll, hRest⟩ := hYields
        exact ih (h.round.processAll hAll) hRest

end Stage

/-- A run that is over: all requests have been taken up. -/
structure Finished (task : Task) (names : Names) (operations : List Operation)
    (taken : List Request) (session : Session) : Prop where
  stage : Stage task names operations taken [] session
  pending : session.pending = []

theorem Finished.sound (hStart : Startable task names operations)
    (h : Finished task names operations taken session) : Sound task taken taken session := by
  have hSound := (h.stage.valid hStart).sound
  rwa [List.nil_append, h.pending, List.append_nil] at hSound

/-- Compiling succeeds only by a run that is over. -/
theorem exists_finished_of_compile (hStart : Startable task names operations) {graph : Graph}
    (h : (compileOperations task names operations).1 = .ok graph) :
    ∃ taken session, Finished task names operations taken session ∧ session.graph = graph := by
  have hYields : (Build.compile task operations).Yields (.initial names) graph
      ((Build.compile task operations).run (.initial names)).2 := Prod.ext h rfl
  rw [Build.compile, Build.yields_bind] at hYields
  obtain ⟨_, asked, hOperations, hYields⟩ := hYields
  rw [Build.yields_bind] at hYields
  obtain ⟨_, drained, hDrain, hYields⟩ := hYields
  rw [Build.yields_bind] at hYields
  obtain ⟨_, last, hGet, hYields⟩ := hYields
  rw [Build.yields_get] at hGet
  obtain ⟨rfl, rfl⟩ := hGet
  rw [Build.yields_pure] at hYields
  obtain ⟨rfl, _⟩ := hYields
  have hStage : Stage task names operations [] [] asked := .start hOperations
  obtain ⟨taken, hTaken⟩ := hStage.drain hDrain
  have hPending := pending_of_drain hStart.setting.document hStart.setting.positions
    hStart.operations.subset hOperations hDrain
  exact ⟨taken, _, ⟨hTaken, hPending⟩, rfl⟩

/-- The interfaces of a graph are those of trees that its requests grew. -/
theorem Sound.exists_tree {parents requests : List Request}
    (h : Sound task parents requests session) {model : InterfaceModel}
    (hModel : model ∈ session.graph.interfaces) :
    ∃ tree, Rooted task.toSetting requests tree ∧
      (∃ parent ∈ parents, parent.Grows task.toSetting tree) ∧
      session.interface? tree.key = some model ∧ Represents task requests session tree model := by
  obtain ⟨found, hFound, hInterface⟩ := List.mem_filterMap.mp hModel
  rw [Model.eq_of_interface? hInterface] at hFound
  obtain ⟨key, hOwns, _⟩ := h.owned _ _ (h.keyed.get?_name hFound)
  cases hOwns with
  | interface hKept =>
      obtain ⟨tree, rfl, hRooted, hGrows, hRepresents⟩ := h.represents _ _ hKept
      exact ⟨tree, hRooted, hGrows, hKept, hRepresents⟩

/-- The interfaces that are kept stand in the graph. -/
theorem Sound.mem_interfaces {parents requests : List Request}
    (h : Sound task parents requests session) {key : OriginKey} {model : InterfaceModel}
    (hFound : session.interface? key = some model) : model ∈ session.graph.interfaces :=
  List.mem_filterMap.mpr ⟨_, OrderedMap.mem_values_of_get? (h.kept key model hFound), rfl⟩

/-- When a run is over, a request has its interface: it stands under the name that the request
gave out, and it is a view of the type that the request is at. -/
theorem Finished.model_of_request (hStart : Startable task names operations)
    (h : Finished task names operations taken session) {request : Request}
    (hRequest : request ∈ taken) :
    ∃ model, session.interface? request.returnTree.key = some model ∧
      session.graph.interface? request.returnTypeName = some model ∧
      model.name = request.returnTypeName ∧ model.type = request.declared.name := by
  have hSound := h.sound hStart
  obtain ⟨model, hModel⟩ := (h.stage.valid hStart).returned request hRequest
  have hRepresents := hSound.represents_tree hStart.setting
    (hSound.known hStart.setting request hRequest).rooted hModel
  have hName : model.name = request.returnTypeName := by
    have hNamed := hSound.named request hRequest
    rw [hRepresents.name] at hNamed
    exact Option.some.inj hNamed
  obtain ⟨_, _, hMade⟩ := hSound.history.made hRequest
  obtain ⟨_, hReturns⟩ := hMade.returns
  exact ⟨model, hModel, Graph.interface?_eq_some_iff.mpr (hName ▸ hSound.kept _ _ hModel), hName,
    hRepresents.type.trans hReturns.condition_name⟩

end ResponseModels
