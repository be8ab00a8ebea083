import ResponseModels.Proofs.FieldModels
import ResponseModels.Proofs.Run.Registration

/-! Compiled graphs are closed. Whatever a model of the graph refers to stands in the graph under
its name, as the very model that is referred to, and what the value of a composite field is called
is the name of an interface which some parser of the graph returns. -/
namespace ResponseModels

open GraphQL

namespace Graph

/-- Whatever a model of the graph refers to directly is in the graph itself. -/
def RefersWithin (graph : Graph) : Prop :=
  ∀ name model, graph.get? name = some model →
    ∀ reference ∈ model.references, graph.Holds reference

/-- A model may come in when all that it refers to is there. -/
theorem RefersWithin.register {graph : Graph} {model : Model} (h : graph.RefersWithin)
    (hReferences : ∀ reference ∈ model.references, graph.Holds reference) :
    (graph.register model).RefersWithin := by
  have hContains : ∀ reference ∈ model.references, graph.contains reference.name = true :=
    fun reference hReference => (contains_iff _ _).mpr ⟨_, hReferences reference hReference⟩
  intro name found hFound reference hReference
  apply get?_register_of_some hContains
  rw [get?_register hContains] at hFound
  split at hFound
  · rw [← Option.some.inj hFound] at hReference
    exact hReferences reference hReference
  · exact h name found hFound reference hReference

/-- A graph that is complete in itself: models stand under their own names, whatever they refer to
is there as it is, and the targets of composite fields are interfaces that parsers return. -/
structure Closed (graph : Graph) : Prop where
  keyed : ∀ entry ∈ graph.models.entries, entry.1 = entry.2.name
  references : ∀ model ∈ graph.models.values, ∀ reference ∈ model.references,
    graph.get? reference.name = some reference
  targets : ∀ interface ∈ graph.interfaces, ∀ field ∈ interface.fields, ∀ name,
    field.target = .composite name → ∃ model, graph.get? name = some (.interface model) ∧
      model.name = name ∧ ∃ parser ∈ graph.parsers, parser.returnType = model

end Graph

variable {task : Task} {names : Names} {operations : List Operation}
  {parents requests taken rest : List Request} {session next : Session} {request : Request}

/-- Interfaces refer to interfaces that are kept. -/
theorem Sound.holds_of_interface (h : Sound task parents requests session) {name : String}
    {interface : InterfaceModel} (hFound : session.graph.get? name = some (.interface interface)) :
    ∀ reference ∈ (Model.interface interface).references, session.graph.Holds reference := by
  intro reference hReference
  obtain ⟨base, hBase, rfl⟩ := List.mem_map.mp hReference
  obtain ⟨key, hOwns, _⟩ := h.owned _ _ hFound
  cases hOwns with
  | interface hKept =>
      obtain ⟨tree, _, _, _, hRepresents⟩ := h.represents _ _ hKept
      obtain ⟨child, _, hChild⟩ := hRepresents.bases base hBase
      exact h.kept _ _ hChild

theorem Registers.refersWithin {models : List (OriginKey × Model)}
    (h : Registers request session next models) (hSound : Sound task parents requests next)
    (hClosed : session.graph.RefersWithin) : next.graph.RefersWithin := by
  intro name model hModel reference hReference
  rcases h.gained name model hModel with hOld | ⟨interface, rfl⟩ | ⟨entry, hEntry, rfl⟩
  · exact h.stays _ _ (hClosed name model hOld reference hReference)
  · exact hSound.holds_of_interface hModel reference hReference
  · exact h.referred entry hEntry reference hReference

namespace Stage

/-- Taking up a request leaves the graph closed: its classes and its parser come in as they are,
and its operation refers to them. -/
theorem Valid.refersWithin (hSetting : task.toSetting.Admissible)
    (h : Valid task taken (request :: rest) session) (hClosed : session.graph.RefersWithin)
    (hYields : (Build.process task request).Yields session () next) :
    next.graph.RefersWithin := by
  obtain ⟨selected, middle, hModel, hRest⟩ := Build.yields_process hYields
  obtain ⟨_, others, _, hModelled⟩ := h.taking.model hSetting (by simp)
    (h.sound.growing_returnTree hSetting h.returned) hModel
  obtain ⟨entries, _, _, hRegisters⟩ := h.registers hSetting hModel
  have hMiddle := hRegisters.refersWithin hModelled.sound hClosed
  rcases hRest with ⟨_, rfl⟩ | ⟨details, name, proposed, named, _, hName, rfl⟩
  · exact hMiddle
  · obtain ⟨_, _, _, _, hGraph⟩ := hModelled.sound.requestName request hName
    have hParser := hRegisters.held (request.parserKey, .parser selected.parser) (by simp)
    have hReturn := hModelled.sound.kept _ _ hModelled.returned
    change (named.graph.register _).RefersWithin
    rw [hGraph]
    apply hMiddle.register
    intro reference hReference
    rcases List.mem_cons.mp hReference with rfl | hReference
    · exact hReturn
    · rw [List.mem_singleton.mp hReference]
      exact hParser

theorem refersWithin (hStart : Startable task names operations)
    (h : Stage task names operations taken rest session) : session.graph.RefersWithin := by
  induction h with
  | @start session hYields =>
      -- Nothing has been taken up, so there are no models but interfaces.
      have hSound := ((Stage.start hYields).valid hStart).sound
      intro name model hModel reference hReference
      obtain ⟨key, hOwns, _⟩ := hSound.owned name model hModel
      cases hOwns with
      | interface => exact hSound.holds_of_interface hModel reference hReference
      | caseClass hNone => cases hNone
      | resultParser hNone => cases hNone
      | operation hNone => cases hNone
  | round _ ih => exact ih
  | step hStage hYields ih => exact (hStage.valid hStart).refersWithin hStart.setting ih hYields

end Stage

theorem Finished.closed (hStart : Startable task names operations)
    (h : Finished task names operations taken session) : session.graph.Closed := by
  have hKeyed := (h.sound hStart).keyed
  refine ⟨fun entry hEntry => (hKeyed.name_eq entry hEntry).symm, ?_, ?_⟩
  · intro model hModel
    exact h.stage.refersWithin hStart _ _ (hKeyed.get?_name hModel)
  · intro interface hInterface field hField name hTarget
    obtain ⟨request, hFor, rfl⟩ := h.exists_requestedFor hStart hInterface hField hTarget
    obtain ⟨model, hModel, _, parser, hParser, hReturn, _⟩ := h.modelsField hStart hFor
    have hFound := Graph.interface?_eq_some_iff.mp hModel
    exact ⟨model, hFound, hKeyed.name_of_get? hFound, parser, hParser, hReturn⟩

/-- A graph that compiling a document, or one operation of it, comes to is closed. -/
theorem compiled_graph_closed (hSetting : task.toSetting.Admissible) (hNames : names.Reached)
    {graph : Graph} (hCompile : (compile task names).1 = .ok graph ∨
      ∃ name, (compileOperation task names name).1 = .ok graph) : graph.Closed := by
  obtain ⟨operations, hOperations, hRun⟩ : ∃ operations : List Operation,
      operations.Sublist task.document.operations ∧
        (compileOperations task names operations).1 = .ok graph := by
    rcases hCompile with hAll | ⟨name, hOne⟩
    · exact ⟨_, List.Sublist.refl _, hAll⟩
    · unfold compileOperation at hOne
      split at hOne
      · rename_i operation hFound
        exact ⟨[operation], List.singleton_sublist.mpr (List.mem_of_find?_eq_some hFound), hOne⟩
      · cases hOne
  have hStart : Startable task names operations := ⟨hSetting, hNames, hOperations⟩
  obtain ⟨taken, session, hFinished, rfl⟩ := exists_finished_of_compile hStart hRun
  exact hFinished.closed hStart

/-- The graph of two queries that share fragments, and that of the second query alone. -/
theorem friend_graphs_closed :
    ∃ graph alone,
      (compile friendTask (.initial 9)).1 = .ok graph ∧
      (compileOperation friendTask (.initial 9) "Second").1 = .ok alone ∧
      graph.size = 32 ∧ alone.size = 24 ∧ graph.Closed ∧ alone.Closed := by
  have hStart : Startable friendTask (.initial 9) friendTask.document.operations :=
    .ofItems (Option.some_get _).symm (by decide +kernel) 9
  have hRun : (compile friendTask (.initial 9)).1.toOption.map Graph.size = some 32 := by
    decide +kernel
  have hAlone : (compileOperation friendTask (.initial 9) "Second").1.toOption.map Graph.size =
      some 24 := by
    decide +kernel
  obtain ⟨graph, hGraph, hSize⟩ := Option.map_eq_some_iff.mp hRun
  obtain ⟨alone, hOne, hOneSize⟩ := Option.map_eq_some_iff.mp hAlone
  rw [Outcome.toOption_eq_some_iff] at hGraph hOne
  exact ⟨graph, alone, hGraph, hOne, hSize, hOneSize,
    compiled_graph_closed hStart.setting hStart.names (.inl hGraph),
    compiled_graph_closed hStart.setting hStart.names (.inr ⟨"Second", hOne⟩)⟩

end ResponseModels
