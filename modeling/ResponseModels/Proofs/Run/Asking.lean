import ResponseModels.Proofs.Run.Sessions

/-! Asking for selection sets. A step that asks for a name, for a selection set or for what is
beneath a field keeps a session sound; the interfaces and the graph stay as they are. -/
namespace ResponseModels

open GraphQL

variable {task : Task} {parents requests : List Request} {before after : Session}
  {parent : Request}

namespace Sound

/-- Names may be added, as long as they stay distinct, and what waits plays no part. -/
theorem transfer (h : Sound task parents requests before) (hDistinct : after.names.Distinct)
    (hKept : ∀ key name, before.names.nameOf? key = some name →
      after.names.nameOf? key = some name)
    (hInterfaces : after.interfaces = before.interfaces)
    (hRequested : after.requested = before.requested)
    (hTrees : after.returnTrees = before.returnTrees) (hGraph : after.graph = before.graph) :
    Sound task parents requests after := by
  have hActive : parents ⊆ parents := List.Subset.refl _
  have hAll : requests ⊆ requests := List.Subset.refl _
  have hSame : ∀ key, after.interface? key = before.interface? key := by
    intro key
    rw [Session.interface?, hInterfaces]
    rfl
  have hKeeps : before.Keeps after :=
    ⟨hKept, fun key model hFound => (hSame key).trans hFound⟩
  refine ⟨hDistinct, h.history, h.active, hRequested.trans h.requested,
    hTrees.trans h.returnTrees, ?_, ?_, ?_, ?_, hGraph ▸ h.keyed, ?_⟩
  · intro request hRequest
    exact hKept _ _ (h.named request hRequest)
  · intro request hRequest hNone
    exact h.placed_mono hActive hAll hKeeps hRequest hNone
  · intro key model hModel
    rw [hSame] at hModel
    exact h.represents_mono hActive hAll hKeeps hModel
  · intro key model hModel
    rw [hSame] at hModel
    rw [hGraph]
    exact h.kept key model hModel
  · intro name model hModel
    rw [hGraph] at hModel
    exact h.owned_mono hActive hKeeps hModel

/-- A new request is noted. -/
theorem enqueue (h : Sound task parents requests before) {request : Request}
    (hMade : Made task.toSetting parents requests request)
    (hNew : ∀ earlier ∈ requests, earlier.locations ≠ request.locations)
    (hNamed : before.names.nameOf? request.returnTree.key = some request.returnTypeName)
    (hPlaced : request.operation = none → ∃ tree merged,
      PlacedAt task parents (requests ++ [request]) before request tree merged) :
    Sound task parents (requests ++ [request]) (before.enqueue request) := by
  have hActive : parents ⊆ parents := List.Subset.refl _
  have hMore : requests ⊆ requests ++ [request] := List.subset_append_left _ _
  have hKeeps : before.Keeps (before.enqueue request) :=
    ⟨fun _ _ hName => hName, fun _ _ hFound => hFound⟩
  refine ⟨h.names, .snoc h.history hMade hNew, fun _ hMem => hMore (h.active hMem), ?_, ?_, ?_,
    ?_, ?_, h.kept, h.keyed, ?_⟩
  · exact (h.notes.enqueue request).requested
  · exact (h.notes.enqueue request).returnTrees
  · intro other hOther
    rcases List.mem_append.mp hOther with hOld | hLast
    · exact h.named other hOld
    · rw [List.mem_singleton.mp hLast]
      exact hNamed
  · intro other hOther hNone
    rcases List.mem_append.mp hOther with hOld | hLast
    · exact h.placed_mono hActive hMore hKeeps hOld hNone
    · rw [List.mem_singleton.mp hLast] at hNone ⊢
      obtain ⟨tree, merged, hAt⟩ := hPlaced hNone
      exact ⟨tree, merged, hAt.mono hActive (List.Subset.refl _) hKeeps⟩
  · intro key model hFound
    exact h.represents_mono hActive hMore hKeeps hFound
  · intro name model hModel
    exact h.owned_mono hActive hKeeps hModel

theorem requestName (h : Sound task parents requests before) (parent : Request)
    {key : OriginKey} {proposed name : String}
    (hYields : (Build.requestName key proposed).Yields before name after) :
    Sound task parents requests after ∧
      Onward task.toSetting parent before after requests requests ∧
      after.names.nameOf? key = some name ∧ after.interfaces = before.interfaces ∧
      after.graph = before.graph := by
  rw [Build.yields_requestName] at hYields
  obtain ⟨hName, rfl⟩ := hYields
  have hKept : ∀ other name, before.names.nameOf? other = some name →
      (before.names.request key proposed).2.nameOf? other = some name :=
    fun _ _ hKnown => Names.nameOf?_request_of_some hKnown
  refine ⟨h.transfer (h.names.request key proposed) hKept rfl rfl rfl rfl, ?_,
    Names.nameOf?_request hName, rfl, rfl⟩
  exact ⟨⟨hKept, fun _ _ hFound => hFound⟩, fun _ _ hFound => hFound, [], by simp⟩

/-- A return tree that is found by the nodes of its selection set is that of the request for
them. -/
theorem mem_of_returnTrees (h : Sound task parents requests before) {locations : List Location}
    {tree : FragmentTree}
    (hFound : before.returnTrees.lookup (.selection locations) = some tree) :
    ∃ request ∈ requests, request.locations = locations ∧ tree = request.returnTree := by
  obtain ⟨request, hRequest, hOrigin, hTree⟩ :=
    h.notes.mem_of_mem_returnTrees (Association.mem_of_lookup hFound)
  injection hOrigin with hLocations
  exact ⟨request, hRequest, hLocations, hTree⟩

theorem lookup_returnTrees (h : Sound task parents requests before) {request : Request}
    (hRequest : request ∈ requests) :
    before.returnTrees.lookup (.selection request.locations) = some request.returnTree := by
  rw [h.returnTrees]
  refine Association.lookup_of_mem ?_ (List.mem_reverse.mpr (List.mem_map.mpr ⟨_, hRequest, rfl⟩))
  have hOrigins : (requests.map fun request => Origin.selection request.locations).Nodup := by
    have hNodup := h.history.nodup_locations.map (f := Origin.selection)
      fun _ _ hSame => Origin.selection.inj hSame
    rwa [List.map_map] at hNodup
  rw [List.map_reverse, List.nodup_reverse, List.map_map]
  exact hOrigins

end Sound

/-- The request that an inquiry leads to. -/
structure Build.Inquiry.Fulfilled (setting : Setting) (inquiry : Build.Inquiry)
    (request : Request) : Prop where
  declared : request.declared = inquiry.declared
  path : request.path = inquiry.path
  locations : request.locations = inquiry.locations
  selections : request.selections = inquiry.selections
  source : request.source = inquiry.source
  operation : request.operation = inquiry.operation
  returns : request.Returns setting inquiry.bases

namespace Build

/-- The inquiry for what is selected beneath a field. -/
def fieldInquiry (merged : MergedField) (declared : SchemaType) (bases : List FragmentTree) :
    Inquiry where
  declared := declared
  modelName := Text.capitalized merged.responseKey
  path := merged.path
  locations := merged.locations
  selections := merged.nested
  source := .field merged.field.name merged.field.parent.name merged.responseKey
  operation := none
  bases := bases

theorem Inquiry.Fulfilled.asks {setting : Setting} {merged : MergedField} {declared : SchemaType}
    {bases : List FragmentTree} {request : Request}
    (h : (fieldInquiry merged declared bases).Fulfilled setting request)
    (hType : setting.schema.type? merged.field.annotation.innermost.name = some declared)
    (hComposite : declared.isComposite = true) : request.Asks setting merged := by
  have hDeclared : request.declared = declared := h.declared
  refine ⟨h.locations, h.selections, ?_, ?_, h.source, h.operation⟩
  · rw [hDeclared, hType]
  · rw [hDeclared, hComposite]

/-- The inquiry for the selection set of an operation on its root type. -/
def operationInquiry (task : Task) (operation : Operation) (declared : SchemaType) : Inquiry where
  declared := declared
  modelName := Text.capitalized (operation.name.getD task.config.anonymousName)
  path := .root (operation.name.getD task.config.anonymousName)
  locations := [task.document.locate operation.position]
  selections := operation.selections
  source := .operation operation.kind (operation.name.getD task.config.anonymousName)
  operation := some ⟨operation.kind, task.document.locate operation.position, declared.name,
    operation.vars.map fun v => ⟨v.name, .ofTypeExpr (task.document.locate v.position) v.type⟩⟩
  bases := []

/-- To ask for an operation is to inquire about it on its root type, which there must be. -/
theorem requestOperation_cases (task : Task) (operation : Operation) :
    (∃ name location,
        requestOperation task operation = throw (.missingRoot operation.kind name location)) ∨
      ∃ root declared, task.schema.root? operation.kind = some root ∧
        task.schema.type? root.name = some declared ∧
        requestOperation task operation =
          request task (operationInquiry task operation declared) >>= fun _ => pure () := by
  unfold requestOperation
  dsimp only
  split
  · exact .inl ⟨_, _, rfl⟩
  · rename_i declared hDeclared
    obtain ⟨root, hRoot, hType⟩ := Option.bind_eq_some_iff.mp hDeclared
    exact .inr ⟨root, declared, hRoot, hType, rfl⟩

theorem yields_requestOperation {operation : Operation}
    (h : (requestOperation task operation).Yields before () after) :
    ∃ root declared name, task.schema.root? operation.kind = some root ∧
      task.schema.type? root.name = some declared ∧
      (request task (operationInquiry task operation declared)).Yields before name after := by
  rcases requestOperation_cases task operation with
    ⟨_, _, hThrow⟩ | ⟨root, declared, hRoot, hType, hAsk⟩
  · rw [hThrow] at h
    exact absurd h (yields_throw _ _)
  · rw [hAsk, yields_bind] at h
    obtain ⟨name, last, hRequest, h⟩ := h
    rw [yields_pure] at h
    obtain ⟨_, rfl⟩ := h
    exact ⟨root, declared, name, hRoot, hType, hRequest⟩

/-- A selection set that is asked for waits with the name of its return tree. -/
theorem yields_request {inquiry : Inquiry} {name : String}
    (h : (request task inquiry).Yields before name after) :
    ∃ request proposed, inquiry.Fulfilled task.toSetting request ∧
      request.returnTypeName = name ∧
      (before.names.request request.returnTree.key proposed).1 = .ok name ∧
      after = { before with
        names := (before.names.request request.returnTree.key proposed).2 }.enqueue request := by
  unfold Build.request at h
  rw [yields_bind] at h
  obtain ⟨collected, middle, hCollected, h⟩ := h
  rw [yields_ofExcept] at hCollected
  obtain ⟨hCollected, rfl⟩ := hCollected
  dsimp only at h
  rw [yields_bind] at h
  obtain ⟨named, next, hName, h⟩ := h
  rw [yields_requestName] at hName
  obtain ⟨hName, rfl⟩ := hName
  rw [yields_bind] at h
  obtain ⟨_, last, hModify, h⟩ := h
  rw [yields_modify] at hModify
  rw [yields_pure] at h
  obtain ⟨rfl, rfl⟩ := h
  refine ⟨⟨inquiry.declared, inquiry.modelName, inquiry.operation, inquiry.path, _, name,
    inquiry.locations, inquiry.selections, inquiry.source⟩, _,
    ⟨rfl, rfl, rfl, rfl, rfl, rfl, collected, hCollected, rfl⟩, rfl, hName, hModify⟩

/-- What is beneath a field was asked for before, or is inquired about now. -/
theorem yields_requestField {merged : MergedField} {declared : SchemaType}
    {overridden : List MergedField} {name : String}
    (h : (requestField task merged declared overridden).Yields before name after) :
    (before.requested.lookup merged.origin = some name ∧ after = before) ∨
      before.requested.lookup merged.origin = none ∧
        (request task (fieldInquiry merged declared (addTrees []
          (overridden.filterMap fun base => before.returnTrees.lookup base.origin)))).Yields
            before name after := by
  unfold requestField at h
  rw [yields_get_bind] at h
  split at h
  · rename_i known hKnown
    rw [yields_pure] at h
    obtain ⟨rfl, rfl⟩ := h
    exact .inl ⟨hKnown, rfl⟩
  · rename_i hNone
    rw [yields_get_bind] at h
    exact .inr ⟨hNone, h⟩

/-- The declaration of a composite field refers to what is asked for beneath it; beneath any other
field nothing is selected. -/
theorem yields_fieldModel {merged : MergedField} {overridden : List MergedField}
    {field : FieldModel} (h : (fieldModel task merged overridden).Yields before field after) :
    ∃ type, innermostType? task merged = some type ∧
      ((type.isComposite = true ∧ ∃ name,
          (requestField task merged type overridden).Yields before name after ∧
          field = ⟨merged.field.name, .composite name, merged.responseKey,
            merged.field.annotation⟩) ∨
        type.isComposite = false ∧ merged.nodes.any (!·.selections.isEmpty) = false ∧
          field = ⟨merged.field.name, .leaf type.kind merged.field.annotation.innermost.name,
            merged.responseKey, merged.field.annotation⟩ ∧ after = before) := by
  unfold fieldModel at h
  dsimp only at h
  split at h
  · rw [yields_bind] at h
    obtain ⟨_, _, hThrow, _⟩ := h
    exact absurd hThrow (yields_throw _ _)
  · rename_i type hType
    refine ⟨type, hType, ?_⟩
    split at h
    · rename_i hComposite
      rw [yields_bind] at h
      obtain ⟨target, middle, hTarget, h⟩ := h
      rw [yields_pure] at h
      obtain ⟨rfl, rfl⟩ := h
      rw [yields_map] at hTarget
      obtain ⟨name, hName, rfl⟩ := hTarget
      exact .inl ⟨hComposite, name, hName, rfl⟩
    · rename_i hLeaf
      split at h
      · rw [yields_bind] at h
        obtain ⟨_, _, hThrow, _⟩ := h
        exact absurd hThrow (yields_throw _ _)
      · rename_i hNothing
        rw [pure_bind, yields_pure] at h
        obtain ⟨rfl, rfl⟩ := h
        exact .inr ⟨by simpa using hLeaf, by simpa using hNothing, rfl, rfl⟩

/-- The request asks for the selection set of an operation on its root type. -/
def AsksOperation (task : Task) (operation : Operation) (request : Request) : Prop :=
  ∃ root declared, task.schema.root? operation.kind = some root ∧
    task.schema.type? root.name = some declared ∧
    (operationInquiry task operation declared).Fulfilled task.toSetting request

theorem pending_requestOperation {operation : Operation}
    (h : (requestOperation task operation).Yields before () after) :
    ∃ request, after.pending = before.pending ++ [request] ∧
      AsksOperation task operation request := by
  obtain ⟨root, declared, name, hRoot, hType, hRequest⟩ := yields_requestOperation h
  obtain ⟨request, _, hFulfilled, _, _, rfl⟩ := yields_request hRequest
  exact ⟨request, rfl, root, declared, hRoot, hType, hFulfilled⟩

/-- The requests for operations wait in the order of the operations. -/
theorem pending_requestOperations {operations : List Operation}
    (h : (requestOperations task operations).Yields before () after) :
    ∃ asked, after.pending = before.pending ++ asked ∧
      List.Forall₂ (AsksOperation task) operations asked := by
  induction operations generalizing before with
  | nil =>
      rw [requestOperations, yields_pure] at h
      obtain ⟨_, rfl⟩ := h
      exact ⟨[], by simp, .nil⟩
  | cons operation rest ih =>
      rw [requestOperations, yields_bind] at h
      obtain ⟨_, middle, hFirst, hRest⟩ := h
      obtain ⟨request, hPending, hAsks⟩ := pending_requestOperation hFirst
      obtain ⟨asked, hMore, hAsked⟩ := ih hRest
      exact ⟨request :: asked, by simp [hMore, hPending], .cons hAsks hAsked⟩

end Build

namespace Sound

/-- A request is made and noted. -/
theorem request (h : Sound task parents requests before) {inquiry : Build.Inquiry}
    {name : String} (hNew : ∀ earlier ∈ requests, earlier.locations ≠ inquiry.locations)
    (hMade : ∀ request, inquiry.Fulfilled task.toSetting request →
      Made task.toSetting parents requests request)
    (hPlaced : ∀ request, inquiry.Fulfilled task.toSetting request → request.operation = none →
      ∃ tree merged, PlacedAt task parents (requests ++ [request]) before request tree merged)
    (hYields : (Build.request task inquiry).Yields before name after) :
    ∃ request, inquiry.Fulfilled task.toSetting request ∧ request.returnTypeName = name ∧
      Sound task parents (requests ++ [request]) after ∧
      after.pending = before.pending ++ [request] ∧
      (∀ key name, before.names.nameOf? key = some name →
        after.names.nameOf? key = some name) ∧
      after.interfaces = before.interfaces ∧ after.graph = before.graph := by
  obtain ⟨request, proposed, hFulfilled, hReturn, hName, rfl⟩ := Build.yields_request hYields
  have hKept : ∀ other name, before.names.nameOf? other = some name →
      (before.names.request request.returnTree.key proposed).2.nameOf? other = some name :=
    fun _ _ hKnown => Names.nameOf?_request_of_some hKnown
  refine ⟨request, hFulfilled, hReturn, ?_, rfl, hKept, rfl, rfl⟩
  have hNamed : Sound task parents requests { before with
      names := (before.names.request request.returnTree.key proposed).2 } :=
    h.transfer (h.names.request _ proposed) hKept rfl rfl rfl rfl
  refine hNamed.enqueue (hMade request hFulfilled) ?_ ?_ fun hNone => ?_
  · rw [hFulfilled.locations]
    exact hNew
  · rw [hReturn]
    exact Names.nameOf?_request hName
  · obtain ⟨tree, merged, hAt⟩ := hPlaced request hFulfilled hNone
    exact ⟨tree, merged, hAt.mono (List.Subset.refl _) (List.Subset.refl _)
      ⟨hKept, fun _ _ hFound => hFound⟩⟩

end Sound

/-- A tree whose interface is being made from those of its children, with the fields of all of
them. -/
structure Assembling (task : Task) (parents : List Request) (parent : Request)
    (session : Session) (path : ModelPath) (tree : FragmentTree) (fields : List MergedField)
    (bases : List (InterfaceModel × List MergedField)) : Prop where
  active : parent ∈ parents
  grows : parent.Grows task.toSetting tree
  merges : task.treeFields path tree = .ok fields
  children : List.Forall₂ (fun child base => session.interface? child.key = some base.1 ∧
    task.treeFields path child = .ok base.2) tree.children bases

/-- The fields that the bases have under a response key. -/
def overriddenIn (bases : List (InterfaceModel × List MergedField)) (key : String) :
    List MergedField :=
  bases.filterMap fun base => base.2.find? (·.responseKey == key)

variable {path : ModelPath} {tree : FragmentTree} {fields : List MergedField}
  {bases : List (InterfaceModel × List MergedField)} {merged : MergedField}

/-- The overridden fields are those that subtrees have under the response key. -/
theorem mem_overriddenIn {trees : List FragmentTree}
    (h : List.Forall₂ (fun child base => before.interface? child.key = some base.1 ∧
      task.treeFields path child = .ok base.2) trees bases)
    (key : String) (other : MergedField) : other ∈ overriddenIn bases key ↔
      ∃ child ∈ trees, ∃ fields, task.treeFields path child = .ok fields ∧
        other ∈ fields ∧ other.responseKey = key := by
  rw [overriddenIn, List.mem_filterMap]
  constructor
  · rintro ⟨base, hBase, hFound⟩
    obtain ⟨child, hChild, _, hFields⟩ := Outcome.exists_left h hBase
    have hKey := List.find?_some hFound
    exact ⟨child, hChild, base.2, hFields, List.mem_of_find?_eq_some hFound, eq_of_beq hKey⟩
  · rintro ⟨child, hChild, others, hOthers, hMem, rfl⟩
    obtain ⟨base, hBase, _, hFields⟩ := Outcome.exists_right h hChild
    rw [hFields] at hOthers
    cases hOthers
    exact ⟨base, hBase, Setting.find?_responseKey hFields hMem⟩

namespace Assembling

theorem transfer (h : Assembling task parents parent before path tree fields bases)
    (hInterfaces : after.interfaces = before.interfaces) :
    Assembling task parents parent after path tree fields bases := by
  have hSame : ∀ key, after.interface? key = before.interface? key := by
    intro key
    rw [Session.interface?, hInterfaces]
    rfl
  refine ⟨h.active, h.grows, h.merges, ?_⟩
  simp only [hSame]
  exact h.children

end Assembling

namespace Sound

theorem rooted_of_assembling (hSetting : task.toSetting.Admissible)
    (h : Sound task parents requests before)
    (hTree : Assembling task parents parent before path tree fields bases) :
    Rooted task.toSetting requests tree :=
  (h.known hSetting parent (h.active hTree.active)).rooted_of_grows hSetting
    (h.active hTree.active) hTree.grows

/-- Nothing is overridden under a response key that no base exposes. -/
theorem overriddenIn_eq_nil (hSetting : task.toSetting.Admissible)
    (h : Sound task parents requests before)
    (hTree : Assembling task parents parent before path tree fields bases) {key : String}
    (hNone : ∀ base ∈ bases, key ∉ base.1.fieldNames) : overriddenIn bases key = [] := by
  refine List.eq_nil_iff_forall_not_mem.mpr fun other hOther => ?_
  obtain ⟨child, hChild, others, hOthers, hMem, rfl⟩ := (mem_overriddenIn hTree.children key other).mp hOther
  obtain ⟨base, hBase, hFound, _⟩ := Outcome.exists_right hTree.children hChild
  have hRooted := (h.rooted_of_assembling hSetting hTree).within (.inner hChild (.self _))
  refine hNone base hBase ((h.mem_fieldNames_iff hSetting hRooted hFound _).mpr ?_)
  exact Setting.exposes_of_treeFields hOthers hMem

/-- The return trees that are found for overridden fields. -/
theorem takesOver (h : Sound task parents requests before)
    (hTree : Assembling task parents parent before path tree fields bases) (key : String) :
    Request.TakesOver task.toSetting requests path tree key (Build.addTrees []
      ((overriddenIn bases key).filterMap fun base => before.returnTrees.lookup base.origin)) := by
  constructor
  · intro base hBase
    rcases Build.mem_of_mem_addTrees hBase with hNil | hBase
    · cases hNil
    · obtain ⟨other, hOther, hFound⟩ := List.mem_filterMap.mp hBase
      obtain ⟨child, hChild, others, hOthers, hMem, hKey⟩ :=
        (mem_overriddenIn hTree.children key other).mp hOther
      obtain ⟨earlier, hEarlier, hLocations, hSame⟩ := h.mem_of_returnTrees hFound
      exact ⟨earlier, hEarlier, ⟨child, hChild, others, hOthers, other, hMem, hKey, hLocations⟩,
        hSame⟩
  · rintro earlier hEarlier ⟨child, hChild, others, hOthers, other, hMem, hKey, hLocations⟩
    have hOther := (mem_overriddenIn hTree.children key other).mpr
      ⟨child, hChild, others, hOthers, hMem, hKey⟩
    have hFound : before.returnTrees.lookup other.origin = some earlier.returnTree := by
      rw [MergedField.origin, ← hLocations]
      exact h.lookup_returnTrees hEarlier
    obtain ⟨more, hMore, _, hKept⟩ := Build.addTrees_spec []
      ((overriddenIn bases key).filterMap fun base => before.returnTrees.lookup base.origin)
    obtain ⟨kept, hMem, hSame⟩ := hKept earlier.returnTree
      (List.mem_filterMap.mpr ⟨other, hOther, hFound⟩)
    rw [hMore]
    exact List.mem_map.mpr ⟨kept, hMem, hSame⟩

/-- The place of a new request for a field. -/
theorem placedAt (hSetting : task.toSetting.Admissible) (h : Sound task parents requests before)
    (hTree : Assembling task parents parent before path tree fields bases)
    (hMerged : merged ∈ fields) {request : Request} {extra : List FragmentTree}
    (hAsks : request.Asks task.toSetting merged)
    (hTakes : Request.TakesOver task.toSetting requests path tree merged.responseKey extra)
    (hReturns : request.Returns task.toSetting extra)
    (hNew : ∀ earlier ∈ requests, earlier.locations ≠ request.locations) :
    PlacedAt task parents (requests ++ [request]) before request tree merged := by
  have hMade : Made task.toSetting parents requests request :=
    .field hTree.active (h.active hTree.active) hTree.grows hTree.merges hMerged hAsks hTakes
      hReturns
  have hHistory := h.history.snoc hMade hNew
  have hMore : requests ⊆ requests ++ [request] := List.subset_append_left _ _
  have hExtra : ∀ base ∈ extra, Rooted task.toSetting (requests ++ [request]) base := by
    intro base hBase
    obtain ⟨earlier, hEarlier, _, rfl⟩ := hTakes.from_prior base hBase
    exact (hHistory.known hSetting earlier (hMore hEarlier)).rooted
  refine ⟨⟨parent, hTree.active, hTree.grows⟩, ⟨path, fields, hTree.merges, hMerged⟩, hAsks,
    fun child hChild => ?_⟩
  obtain ⟨base, hBase, hFound, hFields⟩ := Outcome.exists_right hTree.children hChild
  refine ⟨base.1, hFound, fun field hField hKey model hModel => ?_⟩
  have hRooted := (h.rooted_of_assembling hSetting hTree).within (.inner hChild (.self _))
  obtain ⟨_, _, hOthers, hDeclared, _⟩ := (h.represents_tree hSetting hRooted hFound).fields
  obtain ⟨other, hOther, hDeclares⟩ := hDeclared field hField
  obtain ⟨earlier, hEarlier, hLocations, hName⟩ := hDeclares.target model hModel
  obtain ⟨same, hMem, hSameKey, hSame⟩ := Setting.exists_merged_at hOthers hOther hFields
  refine ⟨earlier, hMore hEarlier, hName, ?_⟩
  refine hHistory.mem_allKeys_of_base hSetting (by simp) hReturns hExtra (hMore hEarlier) ?_
  refine hTakes.all_prior earlier hEarlier ⟨child, hChild, base.2, hFields, same, hMem, ?_, ?_⟩
  · rw [hSameKey, ← hDeclares.responseName, hKey]
  · rw [hSame, hLocations]

/-- What is beneath a field is asked for, unless the same nodes were asked for before. -/
theorem requestField (hSetting : task.toSetting.Admissible)
    (h : Sound task parents requests before)
    (hTree : Assembling task parents parent before path tree fields bases)
    (hMerged : merged ∈ fields) {declared : SchemaType}
    (hType : Build.innermostType? task merged = some declared)
    (hComposite : declared.isComposite = true) {name : String}
    (hYields : (Build.requestField task merged declared
      (overriddenIn bases merged.responseKey)).Yields before name after) :
    ∃ others, Sound task parents others after ∧
      Onward task.toSetting parent before after requests others ∧
      after.interfaces = before.interfaces ∧ after.graph = before.graph ∧
      ∃ request ∈ others, request.locations = merged.locations ∧
        request.returnTypeName = name := by
  rcases Build.yields_requestField hYields with ⟨hKnown, rfl⟩ | ⟨hNone, hYields⟩
  · exact ⟨requests, h, .refl _ _, rfl, rfl, h.notes.mem_of_requested hKnown⟩
  · have hNew := h.notes.not_requested hNone
    have hTakes := h.takesOver hTree merged.responseKey
    have hMade : ∀ request, (Build.fieldInquiry merged declared (Build.addTrees []
        ((overriddenIn bases merged.responseKey).filterMap fun base =>
          before.returnTrees.lookup base.origin))).Fulfilled task.toSetting request →
          Made task.toSetting parents requests request := by
      intro request hFulfilled
      exact .field hTree.active (h.active hTree.active) hTree.grows hTree.merges hMerged
        (hFulfilled.asks hType hComposite) hTakes hFulfilled.returns
    obtain ⟨request, hFulfilled, hReturn, hSound, hPending, hNames, hInterfaces, hGraph⟩ :=
      h.request hNew hMade (by
        intro request hFulfilled _
        exact ⟨tree, merged, h.placedAt hSetting hTree hMerged (hFulfilled.asks hType hComposite)
          hTakes hFulfilled.returns (hFulfilled.locations ▸ hNew)⟩) hYields
    refine ⟨requests ++ [request], hSound, ⟨⟨hNames, ?_⟩, ?_, [request], rfl, hPending, ?_⟩,
      hInterfaces, hGraph, request, by simp, hFulfilled.locations, hReturn⟩
    · intro key model hFound
      rw [Session.interface?, hInterfaces]
      exact hFound
    · intro name model hModel
      rw [hGraph]
      exact hModel
    · intro other hOther
      rw [List.mem_singleton.mp hOther]
      exact ⟨tree, path, fields, hTree.grows, hTree.merges, merged, hMerged,
        hFulfilled.asks hType hComposite⟩

/-- The declaration of a field of a tree. -/
theorem fieldModel (hSetting : task.toSetting.Admissible)
    (h : Sound task parents requests before)
    (hTree : Assembling task parents parent before path tree fields bases)
    (hMerged : merged ∈ fields) {field : FieldModel}
    (hYields : (Build.fieldModel task merged (overriddenIn bases merged.responseKey)).Yields
      before field after) :
    ∃ others, Sound task parents others after ∧
      Onward task.toSetting parent before after requests others ∧
      after.interfaces = before.interfaces ∧ after.graph = before.graph ∧
      Declares others merged field := by
  obtain ⟨type, hType, ⟨hComposite, name, hName, rfl⟩ | ⟨_, _, rfl, rfl⟩⟩ :=
    Build.yields_fieldModel hYields
  · obtain ⟨others, hSound, hOnward, hInterfaces, hGraph, hRequest⟩ :=
      h.requestField hSetting hTree hMerged hType hComposite hName
    refine ⟨others, hSound, hOnward, hInterfaces, hGraph, rfl, rfl, rfl, ?_⟩
    intro model hModel
    cases hModel
    exact hRequest
  · refine ⟨requests, h, .refl _ _, rfl, rfl, rfl, rfl, rfl, ?_⟩
    intro model hModel
    cases hModel

end Sound

/-- What declaring the left fields of a tree comes to: each declaration is that of one of the
fields, and the response key of every field is declared or exposed by a base. -/
structure DeclaredIn (task : Task) (parents : List Request) (parent : Request)
    (before after : Session) (requests others : List Request)
    (bases : List (InterfaceModel × List MergedField)) (left : List MergedField)
    (declared : List FieldModel) : Prop where
  sound : Sound task parents others after
  onward : Onward task.toSetting parent before after requests others
  interfaces : after.interfaces = before.interfaces
  each : ∀ field ∈ declared, ∃ merged ∈ left, Declares others merged field
  covered : ∀ merged ∈ left, (∃ field ∈ declared, field.responseName = merged.responseKey) ∨
    ∃ base ∈ bases, merged.responseKey ∈ base.1.fieldNames

variable {others : List Request} {middle : Session} {left : List MergedField}
  {declared : List FieldModel}

/-- A field that is declared comes first, and the rest is declared after it. -/
theorem DeclaredIn.cons {earlier : List Request} {field : FieldModel}
    (hOnward : Onward task.toSetting parent before middle requests earlier)
    (hInterfaces : middle.interfaces = before.interfaces) (hField : Declares earlier merged field)
    (h : DeclaredIn task parents parent middle after earlier others bases left declared) :
    DeclaredIn task parents parent before after requests others bases (merged :: left)
      (field :: declared) := by
  refine ⟨h.sound, hOnward.trans h.onward, h.interfaces.trans hInterfaces, ?_, ?_⟩
  · intro other hOther
    rcases List.mem_cons.mp hOther with rfl | hOther
    · exact ⟨merged, List.mem_cons_self, hField.mono h.onward.subset⟩
    · obtain ⟨source, hSource, hDeclares⟩ := h.each other hOther
      exact ⟨source, List.mem_cons_of_mem _ hSource, hDeclares⟩
  · intro other hOther
    rcases List.mem_cons.mp hOther with rfl | hOther
    · exact .inl ⟨field, List.mem_cons_self, hField.responseName⟩
    · rcases h.covered other hOther with ⟨found, hFound, hSame⟩ | hBase
      · exact .inl ⟨found, List.mem_cons_of_mem _ hFound, hSame⟩
      · exact .inr hBase

/-- A field that a base exposes may be left out. -/
theorem DeclaredIn.skip (hExposed : ∃ base ∈ bases, merged.responseKey ∈ base.1.fieldNames)
    (h : DeclaredIn task parents parent before after requests others bases left declared) :
    DeclaredIn task parents parent before after requests others bases (merged :: left)
      declared := by
  refine ⟨h.sound, h.onward, h.interfaces, ?_, ?_⟩
  · intro field hField
    obtain ⟨source, hSource, hDeclares⟩ := h.each field hField
    exact ⟨source, List.mem_cons_of_mem _ hSource, hDeclares⟩
  · intro other hOther
    rcases List.mem_cons.mp hOther with rfl | hOther
    · exact .inr hExposed
    · exact h.covered other hOther

theorem Sound.declareFields (hSetting : task.toSetting.Admissible)
    (h : Sound task parents requests before)
    (hTree : Assembling task parents parent before path tree fields bases) (hLeft : left ⊆ fields)
    (hYields : (Build.declareFields task bases left).Yields before declared after) :
    ∃ others, DeclaredIn task parents parent before after requests others bases left declared := by
  induction left generalizing before requests declared with
  | nil =>
      rw [Build.declareFields, Build.yields_pure] at hYields
      obtain ⟨rfl, rfl⟩ := hYields
      exact ⟨requests, h, .refl _ _, rfl, by simp, by simp⟩
  | cons merged rest ih =>
      obtain ⟨hMerged, hRest⟩ := List.cons_subset.mp hLeft
      have hDeclare : (do
            let field ← Build.fieldModel task merged (overriddenIn bases merged.responseKey)
            return field :: (← Build.declareFields task bases rest) :
              Build (List FieldModel)).Yields before declared after →
          ∃ others, DeclaredIn task parents parent before after requests others bases
            (merged :: rest) declared := by
        intro hYields
        rw [Build.yields_bind] at hYields
        obtain ⟨field, middle, hField, hYields⟩ := hYields
        rw [Build.yields_bind] at hYields
        obtain ⟨more, last, hMore, hYields⟩ := hYields
        rw [Build.yields_pure] at hYields
        obtain ⟨rfl, rfl⟩ := hYields
        obtain ⟨earlier, hSound, hOnward, hInterfaces, _, hDeclares⟩ :=
          h.fieldModel hSetting hTree hMerged hField
        obtain ⟨others, hDone⟩ := ih hSound (hTree.transfer hInterfaces) hRest hMore
        exact ⟨others, hDone.cons hOnward hInterfaces hDeclares⟩
      rw [Build.declareFields] at hYields
      split at hYields
      · rename_i hExposed
        refine hDeclare ?_
        rwa [h.overriddenIn_eq_nil hSetting hTree (by simpa using hExposed)]
      · rename_i hExposed
        dsimp only at hYields
        split at hYields
        · exact hDeclare hYields
        · obtain ⟨others, hDone⟩ := ih h hTree hRest hYields
          exact ⟨others, hDone.skip (by simpa using hExposed)⟩

end ResponseModels
