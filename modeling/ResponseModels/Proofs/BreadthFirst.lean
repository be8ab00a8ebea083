import ResponseModels.Proofs.FieldModels
import ResponseModels.Proofs.Run.Parsers

/-! The order in which selection sets are modelled. Requests are taken up in the order in which they
were made, and what is made for one asks for the fields in it. So the operations come first, and
then their fields level by level; and as the same list of nodes is never asked for twice, every
selection set that was asked for has one parser. -/
namespace ResponseModels

open GraphQL

variable {task : Task} {names : Names} {operations : List Operation} {places more : List Place}
  {taken rest : List Request} {session next before after : Session} {request : Request}

/-- How many response keys there are on the way to a place, the operation's name included. -/
def Place.depth (place : Place) : Nat := place.path.segments.length

theorem Place.Under.depth_eq {place parent : Place} (h : place.Under parent.path) :
    place.depth = parent.depth + 1 := by
  obtain ⟨field, type, key, rfl⟩ := h
  simp [Place.depth, ModelPath.child]

/-- Places in the order of a walk that begins with the operations, gets to a field from a place
before it, and never turns back to a higher level. -/
structure BreadthFirst (task : Task) (operations : List Operation) (places : List Place) :
    Prop where
  begins : ∃ fields, places = operations.map task.place ++ fields ∧
    ∀ place ∈ fields, ∃ field type key, place.source = .field field type key
  descends : ∀ front place back, places = front ++ place :: back → ∀ field type key,
    place.source = .field field type key → ∃ earlier ∈ front, place.path = earlier.path.child key
  deepens : places.Pairwise fun earlier later => earlier.depth ≤ later.depth

namespace BreadthFirst

/-- The operations are on one level. -/
theorem start (task : Task) (operations : List Operation) :
    BreadthFirst task operations (operations.map task.place) := by
  refine ⟨⟨[], by simp⟩, ?_, ?_⟩
  · intro front place back hPlaces field type key hSource
    have hMem : place ∈ operations.map task.place := by simp [hPlaces]
    obtain ⟨operation, _, rfl⟩ := List.mem_map.mp hMem
    cases hSource
  · rw [List.pairwise_map]
    exact List.pairwise_of_forall fun _ _ => le_rfl

/-- The walk goes on to fields of a place, if it is not yet beyond their level. -/
theorem append (h : BreadthFirst task operations places) {parent : Place}
    (hParent : parent ∈ places) (hMore : ∀ place ∈ more, place.Under parent.path)
    (hDepth : ∀ place ∈ places, place.depth ≤ parent.depth + 1) :
    BreadthFirst task operations (places ++ more) := by
  refine ⟨?_, ?_, ?_⟩
  · obtain ⟨fields, rfl, hFields⟩ := h.begins
    refine ⟨fields ++ more, List.append_assoc _ _ _, ?_⟩
    intro place hPlace
    rcases List.mem_append.mp hPlace with hOld | hNew
    · exact hFields place hOld
    · obtain ⟨field, type, key, rfl⟩ := hMore place hNew
      exact ⟨field, type, key, rfl⟩
  · intro front place back hPlaces field type key hSource
    have hNew : place ∈ more → places ⊆ front →
        ∃ earlier ∈ front, place.path = earlier.path.child key := by
      intro hMem hFront
      obtain ⟨_, _, _, rfl⟩ := hMore place hMem
      cases hSource
      exact ⟨parent, hFront hParent, rfl⟩
    -- The place is one of the new ones, unless the front ends within the old ones.
    rcases List.append_eq_append_iff.mp hPlaces with ⟨between, rfl, hSplit⟩ | ⟨between, rfl, hSplit⟩
    · exact hNew (by simp [hSplit]) (List.subset_append_left _ _)
    · cases between with
      | nil =>
          have hMem : place ∈ more := by
            rw [← List.nil_append more, ← hSplit]
            exact List.mem_cons_self
          exact hNew hMem (by simp)
      | cons first old =>
          injection hSplit with hFirst _
          rw [← hFirst] at h
          exact h.descends front place old rfl field type key hSource
  · rw [List.pairwise_append]
    have hLevel : ∀ place ∈ more, place.depth = parent.depth + 1 :=
      fun place hPlace => (hMore place hPlace).depth_eq
    refine ⟨h.deepens, ?_, ?_⟩
    · rw [List.pairwise_iff_forall_sublist]
      intro first second hSublist
      rw [hLevel first (hSublist.subset (by simp)), hLevel second (hSublist.subset (by simp))]
    · intro place hPlace later hLater
      rw [hLevel later hLater]
      exact hDepth place hPlace

end BreadthFirst

/-- Requests that come in wait behind the others. -/
theorem Session.unfolds_pending (accepted : Place → Prop) :
    Session.Unfolds (fun _ => True) accepted fun before after =>
      ∃ more, after.pending = before.pending ++ more ∧
        ∀ request ∈ more, accepted request.place where
  refl session := ⟨[], by simp⟩
  trans := by
    rintro first second third ⟨more, hMore, hAccepted⟩ ⟨others, hOthers, hAccepted'⟩
    refine ⟨more ++ others, by rw [hOthers, hMore, List.append_assoc], ?_⟩
    intro request hRequest
    rcases List.mem_append.mp hRequest with hRequest | hRequest
    · exact hAccepted request hRequest
    · exact hAccepted' request hRequest
  names session names := ⟨[], by simp⟩
  enqueue session request hAccepted := ⟨[request], rfl, by simpa using hAccepted⟩
  register session model _ := ⟨[], by simp [Session.register]⟩
  addInterface session key model := ⟨[], by simp [Session.addInterface, Session.register]⟩

/-- Taking up a request asks for fields in its selection set. -/
theorem Build.pending_process (hYields : (process task request).Yields before () after) :
    ∃ more, after.pending = before.pending ++ more ∧
      ∀ asked ∈ more, asked.place.Under request.place.path := by
  have hProcess : Composed (fun _ => True) (fun place => place.Under request.path)
      (process task request) := .process (fun _ hUnder => hUnder) fun _ => trivial
  exact hProcess.moves (Session.unfolds_pending _) _ _ _ hYields

/-- The requests for operations are at the places of the operations. -/
theorem Build.AsksOperation.map_place {asked : List Request}
    (h : List.Forall₂ (AsksOperation task) operations asked) :
    asked.map Request.place = operations.map task.place := by
  induction h with
  | nil => rfl
  | @cons operation request _ _ hAsks _ ih =>
      obtain ⟨root, declared, _, _, hFulfilled⟩ := hAsks
      rw [List.map_cons, List.map_cons, ih, Request.place, hFulfilled.path, hFulfilled.source]
      rfl

theorem Build.AsksOperation.map_locations {asked : List Request}
    (h : List.Forall₂ (AsksOperation task) operations asked) :
    asked.map Request.locations =
      operations.map fun operation => [task.document.locate operation.position] := by
  induction h with
  | nil => rfl
  | @cons operation request _ _ hAsks _ ih =>
      obtain ⟨root, declared, _, _, hFulfilled⟩ := hAsks
      rw [List.map_cons, List.map_cons, ih, hFulfilled.locations]
      rfl

/-- The requests of a stage, in the order in which they were made, are those of a breadth-first
walk. Those of the current round are on one level, and those that wait are on the next. -/
structure Stage.Levelled (task : Task) (operations : List Operation) (taken rest : List Request)
    (session : Session) (depth : Nat) : Prop where
  walk : BreadthFirst task operations ((taken ++ (rest ++ session.pending)).map Request.place)
  above : ∀ request ∈ taken, request.place.depth ≤ depth
  current : ∀ request ∈ rest, request.place.depth = depth
  waiting : ∀ request ∈ session.pending, request.place.depth = depth + 1

namespace Stage

theorem Levelled.step {depth : Nat}
    (h : Levelled task operations taken (request :: rest) session depth)
    (hYields : (Build.process task request).Yields session () next) :
    Levelled task operations (taken ++ [request]) rest next depth := by
  obtain ⟨more, hPending, hMore⟩ := Build.pending_process hYields
  have hDepth : request.place.depth = depth := h.current request List.mem_cons_self
  refine ⟨?_, ?_, fun other hOther => h.current other (List.mem_cons_of_mem _ hOther), ?_⟩
  · have hParent : request.place ∈
        (taken ++ (request :: rest ++ session.pending)).map Request.place :=
      List.mem_map_of_mem (by simp)
    have hWalk := h.walk.append hParent (List.forall_mem_map.mpr hMore) (by
      simp only [List.forall_mem_map, List.mem_append]
      rintro other (hTaken | hCurrent | hWaiting)
      · have hAbove := h.above other hTaken
        omega
      · have hLevel := h.current other hCurrent
        omega
      · have hBelow := h.waiting other hWaiting
        omega)
    rw [hPending]
    simpa using hWalk
  · intro other hOther
    rcases List.mem_append.mp hOther with hOther | hOther
    · exact h.above other hOther
    · rw [List.mem_singleton.mp hOther, hDepth]
  · intro other hOther
    rw [hPending] at hOther
    rcases List.mem_append.mp hOther with hOther | hOther
    · exact h.waiting other hOther
    · rw [(hMore other hOther).depth_eq, hDepth]

/-- The next round is on the next level. -/
theorem Levelled.round {depth : Nat} (h : Levelled task operations taken [] session depth) :
    Levelled task operations taken session.pending { session with pending := [] }
      (depth + 1) := by
  refine ⟨by simpa using h.walk, ?_, h.waiting, by simp⟩
  intro request hRequest
  exact Nat.le_succ_of_le (h.above request hRequest)

theorem levelled (h : Stage task names operations taken rest session) :
    ∃ depth, Levelled task operations taken rest session depth := by
  induction h with
  | @start session hYields =>
      obtain ⟨asked, hPending, hAsks⟩ := Build.pending_requestOperations hYields
      have hAsked : session.pending = asked := hPending
      have hPlaces := Build.AsksOperation.map_place hAsks
      refine ⟨0, ?_, by simp, by simp, ?_⟩
      · rw [hAsked, List.nil_append, List.nil_append, hPlaces]
        exact .start task operations
      · intro request hRequest
        have hMem : request.place ∈ operations.map task.place := by
          rw [← hPlaces, ← hAsked]
          exact List.mem_map_of_mem hRequest
        obtain ⟨operation, _, hPlace⟩ := List.mem_map.mp hMem
        rw [← hPlace]
        rfl
  | round _ ih =>
      obtain ⟨depth, hLevelled⟩ := ih
      exact ⟨depth + 1, hLevelled.round⟩
  | step _ hYields ih =>
      obtain ⟨depth, hLevelled⟩ := ih
      exact ⟨depth, hLevelled.step hYields⟩

/-- The requests of a stage are those for the operations, and after them requests for fields that
are merged in a tree of a request that was taken up. -/
theorem asked (hStart : Startable task names operations)
    (h : Stage task names operations taken rest session) :
    ∃ first others, taken ++ (rest ++ session.pending) = first ++ others ∧
      first.map Request.locations =
        operations.map (fun operation => [task.document.locate operation.position]) ∧
      ∀ request ∈ others, ∃ parent ∈ taken, parent.AskedIn task.toSetting request := by
  induction h with
  | start hYields =>
      obtain ⟨asked, hPending, hAsks⟩ := Build.pending_requestOperations hYields
      exact ⟨asked, [], by simpa [Session.initial] using hPending,
        Build.AsksOperation.map_locations hAsks, by simp⟩
  | round _ ih =>
      obtain ⟨first, others, hAll, hRest⟩ := ih
      exact ⟨first, others, by simpa using hAll, hRest⟩
  | @step taken rest request session next hStage hYields ih =>
      obtain ⟨first, others, hAll, hLocations, hOthers⟩ := ih
      obtain ⟨_, more, hPending, hMore⟩ :=
        (hStage.valid hStart).step hStart.setting hYields
      refine ⟨first, others ++ more, ?_, hLocations, ?_⟩
      · rw [hPending, ← List.append_assoc first, ← hAll]
        simp
      · intro asked hAsked
        rcases List.mem_append.mp hAsked with hOld | hNew
        · obtain ⟨parent, hParent, hIn⟩ := hOthers asked hOld
          exact ⟨parent, List.mem_append_left _ hParent, hIn⟩
        · exact ⟨request, by simp, hMore asked hNew⟩

end Stage

/-- What a run has asked for: its operations, and lists of nodes that are merged into fields. No
list is asked for twice, and none that a field of a model refers to is left out. -/
structure AskedOnce (task : Task) (operations : List Operation) (taken : List Request)
    (session : Session) : Prop where
  distinct : (taken.map Request.locations).Nodup
  noted : session.requested.map Prod.fst =
    (taken.map fun request => Origin.selection request.locations).reverse
  asked : ∃ first others, taken = first ++ others ∧
    first.map Request.locations =
      operations.map (fun operation => [task.document.locate operation.position]) ∧
    ∀ request ∈ others, ∃ parent ∈ taken, parent.AskedIn task.toSetting request
  complete : ∀ interface ∈ session.graph.interfaces, ∀ field ∈ interface.fields, ∀ model,
    field.target = .composite model →
      ∃ request, RequestedFor task taken session interface field request ∧
        request.returnTypeName = model

theorem Finished.askedOnce (hStart : Startable task names operations)
    (h : Finished task names operations taken session) :
    AskedOnce task operations taken session := by
  have hSound := h.sound hStart
  refine ⟨hSound.history.nodup_locations, ?_, ?_, ?_⟩
  · rw [hSound.requested, List.map_reverse, List.map_map]
    rfl
  · have hAsked := h.stage.asked hStart
    rwa [h.pending, List.nil_append, List.append_nil] at hAsked
  · intro interface hInterface field hField model hModel
    exact h.exists_requestedFor hStart hInterface hField hModel

def ParserModel.place (parser : ParserModel) : Place := ⟨parser.path, parser.source⟩

/-- Parsers are at the places of their requests. -/
theorem map_place_of_parses {setting : Setting} {parsers : List ParserModel}
    (h : List.Forall₂ (Parses setting session) taken parsers) :
    parsers.map ParserModel.place = taken.map Request.place := by
  induction h with
  | nil => rfl
  | cons hParses _ ih =>
      rw [List.map_cons, List.map_cons, ih, ParserModel.place, hParses.path, hParses.source]
      rfl

/-- Selection sets are modelled once each, and breadth first. Behind a graph is a run that has asked
for its operations and for lists of nodes, for none of them twice. The graph has a parser for each
of these requests, in their order, and no other parser. The operations' parsers come first, and
each field's parser is one level beneath one before it. -/
theorem selections_modelled_breadth_first (hStart : Startable task names operations)
    {graph : Graph} (hCompile : (compileOperations task names operations).1 = .ok graph) :
    ∃ taken session, Finished task names operations taken session ∧ session.graph = graph ∧
      AskedOnce task operations taken session ∧
      List.Forall₂ (Parses task.toSetting session) taken graph.parsers ∧
      (graph.parsers.map ParserModel.name).Nodup ∧
      BreadthFirst task operations (graph.parsers.map ParserModel.place) := by
  obtain ⟨taken, session, hFinished, rfl⟩ := exists_finished_of_compile hStart hCompile
  have hParsers := hFinished.stage.parsers hStart
  obtain ⟨depth, hLevelled⟩ := hFinished.stage.levelled
  have hWalk := hLevelled.walk
  rw [hFinished.pending, List.nil_append, List.append_nil] at hWalk
  refine ⟨taken, session, hFinished, rfl, hFinished.askedOnce hStart, hParsers,
    Graph.nodup_parser_names (hFinished.sound hStart).keyed, ?_⟩
  rwa [map_place_of_parses hParsers]

/-- Two queries with the same fragments: the friends of `me` are asked for beneath the first, for
each fragment and for both of them together, and the second has only its own `me` to add. -/
theorem friends_modelled_breadth_first :
    ∃ graph taken session,
      (compileOperations friendTask (.initial 9) friendTask.document.operations).1 = .ok graph ∧
      graph.parsers.map (fun parser => parser.path.segments) =
        [["First"], ["Second"], ["First", "me"], ["First", "me"], ["First", "me"],
          ["Second", "me"], ["First", "me", "friend"], ["First", "me", "friend"],
          ["First", "me", "friend"]] ∧
      Finished friendTask (.initial 9) friendTask.document.operations taken session ∧
      session.graph = graph ∧
      AskedOnce friendTask friendTask.document.operations taken session ∧
      List.Forall₂ (Parses friendTask.toSetting session) taken graph.parsers ∧
      (graph.parsers.map ParserModel.name).Nodup ∧
      BreadthFirst friendTask friendTask.document.operations
        (graph.parsers.map ParserModel.place) := by
  have hRun : (compileOperations friendTask (.initial 9)
      friendTask.document.operations).1.toOption.map (fun graph =>
        graph.parsers.map fun parser => parser.path.segments) =
      some [["First"], ["Second"], ["First", "me"], ["First", "me"], ["First", "me"],
        ["Second", "me"], ["First", "me", "friend"], ["First", "me", "friend"],
        ["First", "me", "friend"]] := by
    decide +kernel
  have hStart : Startable friendTask (.initial 9) friendTask.document.operations :=
    .ofItems (Option.some_get _).symm (by decide +kernel) 9
  obtain ⟨graph, hGraph, hPaths⟩ := Option.map_eq_some_iff.mp hRun
  have hCompile := (Outcome.toOption_eq_some_iff _ _).mp hGraph
  obtain ⟨taken, session, hModelled⟩ := selections_modelled_breadth_first hStart hCompile
  exact ⟨graph, taken, session, hCompile, hPaths, hModelled⟩

end ResponseModels
