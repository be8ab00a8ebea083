import ResponseModels.Proofs.Run.Registration

/-! The parsers of a graph, in the order in which they were registered. Interfaces and classes leave
them as they are, and so does an operation whose parser is there. Taking up a request puts its
parser behind those of the requests before it. -/
namespace ResponseModels

open GraphQL

namespace Model

/-- An interface or a class. -/
def IsShape : Model → Prop
  | .interface _ => True
  | .class _ => True
  | .operation _ => False
  | .parser _ => False

variable {model : Model}

theorem eq_of_parser? {parser : ParserModel} (h : model.parser? = some parser) :
    model = .parser parser := by
  cases model with
  | parser found =>
      cases h
      rfl
  | interface => cases h
  | «class» => cases h
  | operation => cases h

theorem IsShape.parser?_eq_none (h : model.IsShape) : model.parser? = none := by
  cases model with
  | interface => rfl
  | «class» => rfl
  | operation => cases h
  | parser => cases h

theorem IsShape.references (h : model.IsShape) :
    ∀ reference ∈ model.references, reference.IsShape := by
  intro reference hReference
  cases model with
  | interface =>
      obtain ⟨_, _, rfl⟩ := List.mem_map.mp hReference
      trivial
  | «class» =>
      obtain ⟨_, _, rfl⟩ := List.mem_map.mp hReference
      trivial
  | operation => cases h
  | parser => cases h

end Model

namespace Graph

variable {graph : Graph} {model : Model}

theorem mem_parsers {parser : ParserModel} {name : String}
    (h : graph.get? name = some (.parser parser)) : parser ∈ graph.parsers :=
  List.mem_filterMap.mpr ⟨_, OrderedMap.mem_values_of_get? h, rfl⟩

/-- A parser of a graph stands under its name. -/
theorem holds_of_mem_parsers (hKeyed : graph.models.Keyed Model.name) {parser : ParserModel}
    (h : parser ∈ graph.parsers) : graph.Holds (.parser parser) := by
  obtain ⟨model, hModel, hParser⟩ := List.mem_filterMap.mp h
  rw [Model.eq_of_parser? hParser] at hModel
  exact hKeyed.get?_name hModel

/-- No two parsers of a graph have one name. -/
theorem nodup_parser_names (hKeyed : graph.models.Keyed Model.name) :
    (graph.parsers.map ParserModel.name).Nodup := by
  have hNames : graph.models.values.Pairwise fun first second => first.name ≠ second.name := by
    have hKeys := hKeyed.nodup
    rw [← hKeyed.map_name_values] at hKeys
    exact List.pairwise_map.mp hKeys
  rw [List.Nodup, List.pairwise_map, parsers, List.pairwise_filterMap]
  refine hNames.imp ?_
  intro first second hNe parser hParser other hOther
  rwa [Model.eq_of_parser? hParser, Model.eq_of_parser? hOther] at hNe

/-- A model under a new name comes last. -/
theorem parsers_insert (hNew : graph.contains model.name = false) :
    (Graph.mk (graph.models.insert model.name model)).parsers =
      graph.parsers ++ model.parser?.toList := by
  have hAbsent : ¬ graph.models.contains model.name = true := by
    rw [← contains, hNew]
    exact Bool.false_ne_true
  rw [parsers, parsers, OrderedMap.insert, if_neg hAbsent, OrderedMap.values, OrderedMap.values,
    List.map_append, List.filterMap_append, List.map_singleton]
  cases hParser : model.parser? with
  | none => simp [hParser]
  | some parser => simp [hParser]

/-- Interfaces, classes and models that are there bring no parser along. -/
theorem parsers_registerQueue {queue : List Model}
    (hQueue : ∀ model ∈ queue, model.IsShape ∨ graph.contains model.name = true) :
    (graph.registerQueue queue).parsers = graph.parsers := by
  fun_induction registerQueue graph queue with
  | case1 => rfl
  | case2 graph model rest _ ih =>
      exact ih fun other hOther => hQueue other (List.mem_cons_of_mem _ hOther)
  | case3 graph model rest hNew ih =>
      have hShape : model.IsShape := (hQueue model List.mem_cons_self).resolve_right hNew
      rw [ih, parsers_insert (eq_false_of_ne_true hNew), hShape.parser?_eq_none,
        Option.toList_none, List.append_nil]
      intro other hOther
      rcases List.mem_append.mp hOther with hRest | hReference
      · rcases hQueue other (List.mem_cons_of_mem _ hRest) with hShape | hKnown
        · exact .inl hShape
        · exact .inr (contains_insert hKnown)
      · exact .inl (hShape.references other hReference)

/-- A parser comes last, if its name is new. -/
theorem parsers_register (hNew : graph.contains model.name = false)
    (hReferences : ∀ reference ∈ model.references,
      reference.IsShape ∨ graph.contains reference.name = true) :
    (graph.register model).parsers = graph.parsers ++ model.parser?.toList := by
  rw [register, registerQueue, if_neg (by simp [hNew]), List.nil_append, parsers_registerQueue,
    parsers_insert hNew]
  intro reference hReference
  rcases hReferences reference hReference with hShape | hKnown
  · exact .inl hShape
  · exact .inr (contains_insert hKnown)

/-- An operation brings no parser along but its own. -/
theorem parsers_register_operation {operation : OperationModel}
    (hParser : graph.Holds (.parser operation.parser)) :
    (graph.register (.operation operation)).parsers = graph.parsers := by
  cases hKnown : graph.contains operation.name with
  | true => rw [register_of_contains hKnown]
  | false =>
      have hContains := (contains_iff _ _).mpr ⟨_, hParser⟩
      rw [parsers_register hKnown]
      · exact List.append_nil _
      · intro reference hReference
        simp only [Model.references, List.mem_cons, List.not_mem_nil, or_false] at hReference
        rcases hReference with rfl | rfl
        · exact .inl trivial
        · exact .inr hContains

end Graph

/-- Making interfaces and classes leaves the parsers as they are. -/
theorem Session.unfolds_parsers :
    Session.Unfolds Model.IsShape (fun _ => True) fun before after =>
      after.graph.parsers = before.graph.parsers where
  refl session := rfl
  trans h h' := h'.trans h
  names session names := rfl
  enqueue session request _ := rfl
  register session model hShape := Graph.parsers_registerQueue (by simpa using .inl hShape)
  addInterface session key model := by
    apply Graph.parsers_registerQueue
    intro other hOther
    rw [List.mem_singleton.mp hOther]
    exact .inl trivial

variable {task : Task} {names : Names} {operations : List Operation}
  {taken rest : List Request} {session before after next : Session} {request : Request}
  {selected : SelectedModel}

namespace Build

/-- The parser of a request is at the place of the request, and comes last unless its name is
taken. -/
theorem parsers_resultParser {returnType : InterfaceModel} {classes : List ClassModel}
    {discriminators : OrderedMap String}
    (hYields : (resultParser task request returnType classes discriminators).Yields before selected
      after) :
    selected.parser.path = request.path ∧
      (after.graph.parsers = before.graph.parsers ∨
        after.graph.parsers = before.graph.parsers ++ [selected.parser]) := by
  obtain ⟨name, proposed, named, hName, rfl, rfl⟩ := yields_resultParser hYields
  rw [yields_requestName] at hName
  obtain ⟨_, rfl⟩ := hName
  refine ⟨rfl, ?_⟩
  cases hKnown : before.graph.contains name with
  | true =>
      left
      exact congrArg Graph.parsers (Graph.register_of_contains hKnown)
  | false =>
      right
      refine Graph.parsers_register hKnown fun reference hReference => .inl ?_
      rcases List.mem_cons.mp hReference with rfl | hClass
      · trivial
      · obtain ⟨_, _, rfl⟩ := List.mem_map.mp hClass
        trivial

theorem parsers_model (hYields : (model task request).Yields before selected after) :
    selected.parser.path = request.path ∧
      (after.graph.parsers = before.graph.parsers ∨
        after.graph.parsers = before.graph.parsers ++ [selected.parser]) := by
  have hClasses : ∀ model, (Model.class model).IsShape := fun _ => trivial
  obtain ⟨cases, _, hModels⟩ := yields_model hYields
  cases hModels with
  | lone hReturn _ _ hModel hParser =>
      have hMade := (Composed.synthesize (fun _ _ => trivial) _).moves Session.unfolds_parsers
        _ _ _ hReturn
      have hClassed := (Composed.caseClass (fun _ _ => trivial) hClasses _ _ _ _ _).moves
        Session.unfolds_parsers _ _ _ hModel
      rw [← hMade, ← hClassed]
      exact parsers_resultParser hParser
  | each hReturn hEntries hParser =>
      have hMade := (Composed.synthesize (fun _ _ => trivial) _).moves Session.unfolds_parsers
        _ _ _ hReturn
      have hClassed := (Composed.caseClasses (fun _ _ => trivial) hClasses _ _).moves
        Session.unfolds_parsers _ _ _ hEntries
      rw [← hMade, ← hClassed]
      exact parsers_resultParser hParser

end Build

/-- The parser was made for the request: it has the name that is kept for the parser of these
nodes, and it reads what the request is for. -/
structure Parses (setting : Setting) (session : Session) (request : Request)
    (parser : ParserModel) : Prop extends Reads setting session request parser where
  name : session.names.nameOf? request.parserKey = some parser.name
  path : parser.path = request.path

theorem Parses.mono {setting : Setting} {parser : ParserModel} (hKeeps : session.Keeps after)
    (h : Parses setting session request parser) : Parses setting after request parser :=
  ⟨h.toReads.mono hKeeps, hKeeps.names _ _ h.name, h.path⟩

namespace Stage.Valid

/-- The parser of the next request is not in the graph before. -/
theorem not_mem_parsers (hSetting : task.toSetting.Admissible)
    (h : Valid task taken (request :: rest) session)
    (hYields : (Build.model task request).Yields session selected next) :
    selected.parser ∉ session.graph.parsers := by
  intro hMem
  obtain ⟨entries, _, _, hRegisters⟩ := h.registers hSetting hYields
  obtain ⟨_, others, _, hModelled⟩ := h.taking.model hSetting (by simp)
    (h.sound.growing_returnTree hSetting h.returned) hYields
  have hHolds := Graph.holds_of_mem_parsers h.sound.keyed hMem
  obtain ⟨owner, hOwns, hOwner⟩ := h.sound.owned _ _ hHolds
  -- The parser had its name by the key of an earlier request, which is not the key of this one.
  have hNamed := hRegisters.named (request.parserKey, .parser selected.parser) (by simp)
  have hRequest : request ∈ taken ++ (request :: rest ++ session.pending) := by simp
  have hIn := Request.Leaf.inFile .resultParser (h.sound.known hSetting request hRequest)
  have hKey : request.parserKey = owner := hModelled.sound.names.key_eq hNamed
    (hModelled.onward.names _ _ hOwner) hIn (h.sound.inFile_of_owns hSetting hOwns)
  rw [← hKey] at hOwner
  have hVacant := h.sound.vacant_of_not_mem hSetting hRequest h.not_taken .resultParser
  rw [Graph.Holds, hVacant _ hOwner] at hHolds
  cases hHolds

/-- Modelling the next request puts its parser last. -/
theorem parsers_model (hSetting : task.toSetting.Admissible)
    (h : Valid task taken (request :: rest) session)
    (hYields : (Build.model task request).Yields session selected next) :
    next.graph.parsers = session.graph.parsers ++ [selected.parser] ∧
      next.graph.Holds (.parser selected.parser) ∧
      Parses task.toSetting next request selected.parser := by
  obtain ⟨entries, _, _, hRegisters⟩ := h.registers hSetting hYields
  obtain ⟨_, others, _, hModelled⟩ := h.taking.model hSetting (by simp)
    (h.sound.growing_returnTree hSetting h.returned) hYields
  have hEntry : (request.parserKey, Model.parser selected.parser) ∈
      request.classEntries entries ++ [(request.parserKey, .parser selected.parser)] := by simp
  have hHolds : next.graph.Holds (.parser selected.parser) := hRegisters.held _ hEntry
  obtain ⟨hPath, hParsers⟩ := Build.parsers_model hYields
  refine ⟨hParsers.resolve_left fun hSame => ?_, hHolds, ?_, hRegisters.named _ hEntry, hPath⟩
  · have hMem := Graph.mem_parsers hHolds
    rw [hSame] at hMem
    exact h.not_mem_parsers hSetting hYields hMem
  · obtain ⟨parser, hParser, hReads⟩ := hModelled.registered
    rw [Graph.Holds] at hHolds
    cases hHolds.symm.trans hParser
    exact hReads

/-- Taking up the next request puts its parser last. -/
theorem parsers_process (hSetting : task.toSetting.Admissible)
    (h : Valid task taken (request :: rest) session)
    (hYields : (Build.process task request).Yields session () next) :
    ∃ parser, next.graph.parsers = session.graph.parsers ++ [parser] ∧
      Parses task.toSetting next request parser := by
  obtain ⟨selected, middle, hModel, hOperation⟩ := Build.yields_process hYields
  obtain ⟨hParsers, hHolds, hParses⟩ := h.parsers_model hSetting hModel
  refine ⟨selected.parser, ?_⟩
  rcases hOperation with ⟨_, rfl⟩ | ⟨details, name, proposed, named, _, hName, rfl⟩
  · exact ⟨hParsers, hParses⟩
  · rw [Build.yields_requestName] at hName
    obtain ⟨_, rfl⟩ := hName
    refine ⟨(Graph.parsers_register_operation hHolds).trans hParsers, hParses.mono ⟨?_, ?_⟩⟩
    · exact fun _ _ => Names.nameOf?_request_of_some
    · exact fun _ _ hFound => hFound

end Stage.Valid

/-- At every stage there is one parser for each request that was taken up, in the same order. -/
theorem Stage.parsers (hStart : Startable task names operations)
    (h : Stage task names operations taken rest session) :
    List.Forall₂ (Parses task.toSetting session) taken session.graph.parsers := by
  induction h with
  | start hYields =>
      have hAsk : Build.Composed Model.IsShape (fun _ => True)
          (Build.requestOperations task operations) := .requestOperations fun _ _ => trivial
      have hNone := hAsk.moves Session.unfolds_parsers _ _ _ hYields
      rw [hNone]
      exact .nil
  | @round taken session _ ih =>
      have hKeeps : session.Keeps { session with pending := [] } :=
        ⟨fun _ _ hName => hName, fun _ _ hFound => hFound⟩
      exact ih.imp fun _ _ hParses => hParses.mono hKeeps
  | step hStage hYields ih =>
      have hValid := hStage.valid hStart
      obtain ⟨_, _, hOnward, _⟩ := hValid.taking.process hStart.setting (by simp)
        (hValid.sound.growing_returnTree hStart.setting hValid.returned) hYields
      obtain ⟨parser, hParsers, hParses⟩ := hValid.parsers_process hStart.setting hYields
      rw [hParsers]
      exact List.rel_append (ih.imp fun _ _ hEarlier => hEarlier.mono hOnward.toKeeps)
        (.cons hParses .nil)

end ResponseModels
