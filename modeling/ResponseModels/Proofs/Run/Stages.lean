import ResponseModels.Model.Compile
import ResponseModels.Proofs.Run.Modelling

/-! The stages of a run: operations are asked for, then requests are taken up in rounds, the oldest
first. Every stage is sound, and each request that was taken up has its models. -/
namespace ResponseModels

open GraphQL

/-- A session in the course of a run, with the requests that have been taken up, in their order,
and those of the current round that are still to be taken up. -/
inductive Stage (task : Task) (names : Names) (operations : List Operation) :
    List Request → List Request → Session → Prop
  | start {session : Session} :
    (Build.requestOperations task operations).Yields (.initial names) () session →
    Stage task names operations [] [] session
  | round {taken : List Request} {session : Session} :
    Stage task names operations taken [] session →
    Stage task names operations taken session.pending { session with pending := [] }
  | step {taken rest : List Request} {request : Request} {session next : Session} :
    Stage task names operations taken (request :: rest) session →
    (Build.process task request).Yields session () next →
    Stage task names operations (taken ++ [request]) rest next

/-- What a run starts from: an admissible schema and document, names that came about by asking
for them, and operations of the document, none of them twice. -/
structure Startable (task : Task) (names : Names) (operations : List Operation) : Prop where
  setting : task.toSetting.Admissible
  names : names.Reached
  operations : operations.Sublist task.document.operations

/-- The task of compiling definitions against those of a schema, where both are accepted. -/
def Task.ofItems? (types : List SchemaItem) (items : List ExecutableItem) : Option Task := do
  let draft ← (Draft.initial.addAll none types).toOption
  let schema ← draft.build.toOption
  let document ← (Document.ofItems ⟨"queries.graphql"⟩ items).toOption
  return ⟨⟨schema, document⟩, .standard⟩

theorem Startable.ofItems {types : List SchemaItem} {items : List ExecutableItem} {task : Task}
    (h : Task.ofItems? types items = some task)
    (hPositions : task.document.DistinctPositions) (maxSuffix : Nat) :
    Startable task (.initial maxSuffix) task.document.operations := by
  simp only [Task.ofItems?, Option.bind_eq_bind, Option.bind_eq_some_iff,
    Outcome.toOption_eq_some_iff] at h
  obtain ⟨draft, hDraft, schema, hSchema, document, hDocument, hTask⟩ := h
  cases hTask
  have hDrafted : draft.Drafted := .load .initial 0 none types hDraft
  exact ⟨⟨⟨draft, hDrafted, hSchema⟩, ⟨_, items, hDocument⟩, hPositions⟩, .initial maxSuffix,
    List.Sublist.refl _⟩

namespace Stage

/-- The stage after the given one, unless the run fails. -/
def next? (task : Task) : List Request × List Request × Session →
    Option (List Request × List Request × Session)
  | (taken, [], session) => some (taken, session.pending, { session with pending := [] })
  | (taken, request :: rest, session) =>
    match (Build.process task request).run session with
    | (.ok _, next) => some (taken ++ [request], rest, next)
    | (.error _, _) => none

/-- The stage that a run reaches after so many steps. -/
def after? (task : Task) (names : Names) (operations : List Operation) :
    Nat → Option (List Request × List Request × Session)
  | 0 =>
    match (Build.requestOperations task operations).run (.initial names) with
    | (.ok _, session) => some ([], [], session)
    | (.error _, _) => none
  | count + 1 => (after? task names operations count).bind (next? task)

/-- The request that comes next after so many steps, and its models. -/
def models? (task : Task) (names : Names) (operations : List Operation) (count : Nat) :
    Option (Request × SelectedModel) := do
  let (_, queue, session) ← after? task names operations count
  let request ← queue.head?
  let selected ← ((Build.model task request).run session).1.toOption
  return (request, selected)

end Stage

variable {task : Task} {names : Names} {operations : List Operation}
  {taken rest requests parents : List Request} {session next : Session} {request : Request}

namespace Sound

/-- With a tree all trees in it have their interfaces. -/
theorem interface?_within (hSetting : task.toSetting.Admissible)
    (h : Sound task parents requests session) {tree subtree : FragmentTree}
    (hRooted : Rooted task.toSetting requests tree)
    (hWithin : FragmentTree.Within subtree tree) {model : InterfaceModel}
    (hFound : session.interface? tree.key = some model) :
    ∃ inner, session.interface? subtree.key = some inner := by
  induction hWithin generalizing model with
  | self => exact ⟨model, hFound⟩
  | inner hChild _ ih =>
      obtain ⟨base, _, hBase⟩ :=
        (h.represents_tree hSetting hRooted hFound).extended _ hChild
      exact ih (hRooted.within (.inner hChild (.self _))) hBase

/-- The return tree of the next request grows by that request, as the trees that it takes over
have their interfaces. -/
theorem growing_returnTree (hSetting : task.toSetting.Admissible)
    (h : Sound task parents (taken ++ request :: rest) session)
    (hTaken : ∀ earlier ∈ taken, ∃ model,
      session.interface? earlier.returnTree.key = some model) :
    Growing task request session request.returnTree := by
  have hKnown := h.known hSetting
  have hSplit : ∃ bases, request.Returns task.toSetting bases ∧
      ∀ base ∈ bases, ∃ earlier ∈ taken, base = earlier.returnTree := by
    cases h.history.made_of_append with
    | operation _ _ _ _ _ hReturns => exact ⟨[], hReturns, by simp⟩
    | field _ _ _ _ _ _ hBases hReturns =>
        refine ⟨_, hReturns, fun base hBase => ?_⟩
        obtain ⟨earlier, hEarlier, _, hTree⟩ := hBases.from_prior base hBase
        exact ⟨earlier, hEarlier, hTree⟩
  obtain ⟨bases, ⟨collected, hCollected, hTree⟩, hBases⟩ := hSplit
  -- A child of the whole selection set is a fragment of it, or has its interfaces already.
  have hChild : ∀ child ∈ Build.addTrees collected.fragments bases, ∀ subtree,
      FragmentTree.Within subtree child → session.interface? subtree.key = none →
      request.Grows task.toSetting subtree := by
    intro child hMem subtree hWithin hNone
    rcases Build.mem_of_mem_addTrees hMem with hFragment | hBase
    · exact .fragment (.inl rfl) hCollected hFragment hWithin
    · obtain ⟨earlier, hEarlier, rfl⟩ := hBases child hBase
      obtain ⟨model, hModel⟩ := hTaken earlier hEarlier
      have hRooted := (hKnown earlier (List.mem_append_left _ hEarlier)).rooted
      obtain ⟨inner, hInner⟩ := h.interface?_within hSetting hRooted hWithin hModel
      rw [hNone] at hInner
      cases hInner
  intro subtree hWithin hNone
  rcases FragmentTree.hoist_cases request.declared.name
      (request.whole (Build.addTrees collected.fragments bases)) with
    hSame | ⟨child, hChildren, _, _, hHoist⟩
  · rw [hTree, hSame] at hWithin
    rcases FragmentTree.within_iff.mp hWithin with rfl | ⟨child, hMem, hInner⟩
    · exact .whole hCollected (hTree.trans hSame)
    · exact hChild child hMem subtree hInner hNone
  · rw [hTree, hHoist] at hWithin
    have hMem : child ∈ Build.addTrees collected.fragments bases := by
      change Build.addTrees collected.fragments bases = [child] at hChildren
      rw [hChildren]
      exact List.mem_singleton.mpr rfl
    exact hChild child hMem subtree (hWithin.trans (FragmentTree.within_hoist _ _)) hNone

theorem initial (task : Task) (h : names.Reached) : Sound task [] [] (.initial names) := by
  refine ⟨h.distinct, .nil, by simp, rfl, rfl, by simp, by simp, ?_, ?_, .empty _, ?_⟩
  · intro key model hModel
    cases hModel
  · intro key model hModel
    cases hModel
  · intro name model hModel
    cases hModel

/-- The selection set of an operation is asked for. -/
theorem requestOperation (hSetting : task.toSetting.Admissible)
    (h : Sound task [] requests session) {operation : Operation}
    (hOperation : operation ∈ task.document.operations)
    (hNew : ∀ earlier ∈ requests,
      earlier.locations ≠ [task.document.locate operation.position])
    (hYields : (Build.requestOperation task operation).Yields session () next) :
    ∃ request, request.locations = [task.document.locate operation.position] ∧
      Sound task [] (requests ++ [request]) next ∧
      next.pending = session.pending ++ [request] := by
  obtain ⟨root, declared, name, _, hRoot, hRequest⟩ := Build.yields_requestOperation hYields
  have hKnows := hSetting.knows_of_type? hRoot
  obtain ⟨request, hFulfilled, _, hSound, hPending, _⟩ := h.request hNew (by
    intro request hFulfilled
    refine .operation hOperation hFulfilled.locations hFulfilled.selections ?_ ?_
      hFulfilled.returns
    · rw [hFulfilled.declared]
      exact hKnows
    · intro details hDetails
      rw [hFulfilled.operation] at hDetails
      cases hDetails
      rfl) (by
    intro request hFulfilled hNone
    rw [hFulfilled.operation] at hNone
    cases hNone) hRequest
  exact ⟨request, hFulfilled.locations, hSound, hPending⟩

theorem requestOperations (hSetting : task.toSetting.Admissible) (done : List Operation)
    (hOperations : (done ++ operations).Sublist task.document.operations)
    (h : Sound task [] session.pending session)
    (hDone : session.pending.map Request.locations =
      done.map fun operation => [task.document.locate operation.position])
    (hYields : (Build.requestOperations task operations).Yields session () next) :
    Sound task [] next.pending next := by
  induction operations generalizing done session with
  | nil =>
      rw [Build.requestOperations, Build.yields_pure] at hYields
      obtain ⟨_, rfl⟩ := hYields
      exact h
  | cons operation rest ih =>
      rw [Build.requestOperations, Build.yields_bind] at hYields
      obtain ⟨_, middle, hFirst, hRest⟩ := hYields
      have hMem : operation ∈ task.document.operations := hOperations.subset (by simp)
      have hPositions := hSetting.positions.nodup_operation_positions.sublist
        (hOperations.map Operation.position)
      have hNew : ∀ earlier ∈ session.pending,
          earlier.locations ≠ [task.document.locate operation.position] := by
        intro earlier hEarlier hSame
        have hLocations : earlier.locations ∈ done.map fun operation =>
            [task.document.locate operation.position] := hDone ▸ List.mem_map_of_mem hEarlier
        obtain ⟨other, hOther, hLocated⟩ := List.mem_map.mp hLocations
        rw [hSame] at hLocated
        injection hLocated with hLocation
        rw [List.map_append, List.nodup_append] at hPositions
        exact hPositions.2.2 _ (List.mem_map_of_mem hOther) _ (by simp)
          (Document.locate_inj hLocation)
      obtain ⟨request, hLocations, hSound, hPending⟩ :=
        h.requestOperation hSetting hMem hNew hFirst
      rw [← hPending] at hSound
      refine ih (done ++ [operation]) (by simpa using hOperations) hSound ?_ hRest
      rw [hPending, List.map_append, hDone, List.map_append, List.map_singleton, hLocations]
      rfl

end Sound

/-- What holds at every stage: the session is sound, and each request that was taken up has its
interface and its parser. -/
structure Stage.Valid (task : Task) (taken rest : List Request) (session : Session) : Prop where
  sound : Sound task taken (taken ++ (rest ++ session.pending)) session
  returned : ∀ request ∈ taken, ∃ model,
    session.interface? request.returnTree.key = some model
  read : ∀ request ∈ taken, ∃ name parser, session.graph.get? name = some (.parser parser) ∧
    Reads task.toSetting session request parser

/-- The next request may ask for others. -/
theorem Stage.Valid.taking (h : Stage.Valid task taken (request :: rest) session) :
    Sound task (taken ++ [request]) (taken ++ (request :: rest ++ session.pending)) session := by
  refine h.sound.mono_parents (List.subset_append_left taken [request]) fun other hOther => ?_
  simp only [List.mem_append, List.mem_cons] at hOther ⊢
  tauto

/-- One step: the next request is taken up, and the requests that come in are its own. -/
theorem Stage.Valid.step (hSetting : task.toSetting.Admissible)
    (h : Stage.Valid task taken (request :: rest) session)
    (hYields : (Build.process task request).Yields session () next) :
    Stage.Valid task (taken ++ [request]) rest next ∧
      ∃ more, next.pending = session.pending ++ more ∧
        ∀ asked ∈ more, request.AskedIn task.toSetting asked := by
  have hGrowing := h.sound.growing_returnTree hSetting h.returned
  obtain ⟨others, hDone, hOnward, hReturned, hRead⟩ :=
    h.taking.process hSetting (by simp) hGrowing hYields
  obtain ⟨more, rfl, hPending, hAsked⟩ := hOnward.requests
  refine ⟨⟨?_, ?_, ?_⟩, more, hPending, hAsked⟩
  · rw [hPending]
    simpa using hDone
  · intro other hOther
    rcases List.mem_append.mp hOther with hOther | hOther
    · obtain ⟨model, hModel⟩ := h.returned other hOther
      exact ⟨model, hOnward.interfaces _ _ hModel⟩
    · rw [List.mem_singleton.mp hOther]
      exact hReturned
  · intro other hOther
    rcases List.mem_append.mp hOther with hOther | hOther
    · obtain ⟨name, parser, hParser, hReads⟩ := h.read other hOther
      exact ⟨name, parser, hOnward.graph _ _ hParser, hReads.mono hOnward.toKeeps⟩
    · rw [List.mem_singleton.mp hOther]
      exact hRead

/-- A new round starts with all requests that wait. -/
theorem Stage.Valid.round (h : Stage.Valid task taken [] session) :
    Stage.Valid task taken session.pending { session with pending := [] } := by
  refine ⟨?_, h.returned, ?_⟩
  · rw [List.append_nil]
    exact h.sound.transfer h.sound.names (fun _ _ hName => hName) rfl rfl rfl rfl
  · intro request hRequest
    obtain ⟨name, parser, hParser, hReads⟩ := h.read request hRequest
    have hKeeps : session.Keeps { session with pending := [] } :=
      ⟨fun _ _ hName => hName, fun _ _ hFound => hFound⟩
    exact ⟨name, parser, hParser, hReads.mono hKeeps⟩

theorem Stage.valid (hStart : Startable task names operations)
    (h : Stage task names operations taken rest session) : Stage.Valid task taken rest session := by
  induction h with
  | start hYields =>
      have hSound := Sound.requestOperations hStart.setting []
        (by simpa using hStart.operations) (Sound.initial task hStart.names) rfl hYields
      exact ⟨by simpa using hSound, by simp, by simp⟩
  | round _ ih => exact ih.round
  | step _ hYields ih => exact (ih.step hStart.setting hYields).1

namespace Stage

theorem of_after? {count : Nat}
    (h : after? task names operations count = some (taken, rest, session)) :
    Stage task names operations taken rest session := by
  induction count generalizing taken rest session with
  | zero =>
      unfold after? at h
      split at h
      · rename_i hRun
        cases h
        exact .start hRun
      · cases h
  | succ count ih =>
      rw [after?, Option.bind_eq_some_iff] at h
      obtain ⟨⟨earlier, queue, before⟩, hBefore, hNext⟩ := h
      cases queue with
      | nil =>
          cases hNext
          exact .round (ih hBefore)
      | cons request queue =>
          unfold next? at hNext
          dsimp only at hNext
          split at hNext
          · rename_i hRun
            cases hNext
            exact .step (ih hBefore) hRun
          · cases hNext

theorem exists_of_models? {count : Nat} {selected : SelectedModel}
    (h : models? task names operations count = some (request, selected)) :
    ∃ taken rest before after, Stage task names operations taken (request :: rest) before ∧
      (Build.model task request).Yields before selected after := by
  simp only [models?, Option.bind_eq_bind, Option.bind_eq_some_iff,
    Outcome.toOption_eq_some_iff] at h
  obtain ⟨⟨taken, queue, before⟩, hAfter, next, hHead, models, hModel, hSame⟩ := h
  cases hSame
  obtain ⟨rest, rfl⟩ : ∃ rest, queue = request :: rest := by
    cases queue with
    | nil => cases hHead
    | cons first rest =>
        cases hHead
        exact ⟨rest, rfl⟩
  exact ⟨taken, rest, before, ((Build.model task request).run before).2, of_after? hAfter,
    Prod.ext hModel rfl⟩

end Stage

/-- What modelling the next request of a run comes to. -/
theorem Stage.modelled (hStart : Startable task names operations)
    (h : Stage task names operations taken (request :: rest) session)
    {selected : SelectedModel}
    (hYields : (Build.model task request).Yields session selected next) :
    ∃ requests cases, History task.toSetting (taken ++ [request]) requests ∧
      request ∈ requests ∧
      request.CasesIn task.toSetting cases ∧
      Classified task.toSetting request cases selected.parser := by
  have hValid := h.valid hStart
  have hParent : request ∈ taken ++ [request] := by simp
  have hGrowing := hValid.sound.growing_returnTree hStart.setting hValid.returned
  obtain ⟨cases, others, hCases, hModelled⟩ :=
    hValid.taking.model hStart.setting hParent hGrowing hYields
  exact ⟨_, cases, hValid.taking.history, hValid.taking.active hParent, hCases,
    hModelled.classified⟩

end ResponseModels
