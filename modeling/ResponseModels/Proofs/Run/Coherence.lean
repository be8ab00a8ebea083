import ResponseModels.Proofs.Run.Assembly

/-! Sessions in which interfaces are asked for. Whatever a compilation has done before, the names
are given one to one, the requests are noted by their nodes, and every interface that is kept is
the one that can be put together for its tree from what the session has. -/
namespace ResponseModels

open GraphQL

/-- A node that comes about in a session: one that the collector finds in selections of the
document, at whatever type, or one in a tree by which a requested selection set is typed. -/
inductive Arises (setting : Setting) (session : Session) : FragmentTree → Prop
  | collected {scope type : SchemaType} {selections : List Selection} {path : ModelPath}
      {collected : Collected} {tree node : FragmentTree} :
    setting.Knows scope → selections ⊆ setting.document.nodes →
    setting.collectIn scope type selections path = .ok collected →
    tree ∈ collected.fragments → node.Within tree → Arises setting session node
  | returned {origin : Origin} {tree node : FragmentTree} :
    (origin, tree) ∈ session.returnTrees → node.Within tree → Arises setting session node

/-- The sessions that compiling a document comes to: names may be asked for, models registered and
requests taken off the queue at any time, operations are asked for once, and the interface of any
node that comes about may be made. -/
inductive Session.Reachable (task : Task) : Session → Prop
  | initial {names : Names} : names.Reached → Reachable task (.initial names)
  | named {session : Session} (key : OriginKey) (proposed : String) : Reachable task session →
    Reachable task { session with names := (session.names.request key proposed).2 }
  | registered {session : Session} (model : Model) : Reachable task session →
    Reachable task (session.register model)
  | queued {session : Session} (pending : List Request) : Reachable task session →
    Reachable task { session with pending := pending }
  | operation {before after : Session} {operation : Operation} : Reachable task before →
    operation ∈ task.document.operations →
    before.requested.lookup (.selection [task.document.locate operation.position]) = none →
    (Build.requestOperation task operation).Yields before () after → Reachable task after
  | synthesized {before after : Session} {path : ModelPath} {tree : FragmentTree}
      {model : InterfaceModel} : Reachable task before →
    Arises task.toSetting before tree →
    (Build.synthesize task path tree).Yields before model after → Reachable task after

variable {task : Task} {requests : List Request} {session before after : Session}
  {path : ModelPath} {tree : FragmentTree} {fields left : List MergedField}
  {bases : List (InterfaceModel × List MergedField)} {merged : MergedField} {field : FieldModel}
  {declared : List FieldModel} {model : InterfaceModel}

theorem Arises.mono {setting : Setting} (hExtends : before.Extends after)
    (h : Arises setting before tree) : Arises setting after tree := by
  cases h with
  | collected hScope hNodes hCollected hTree hWithin =>
      exact .collected hScope hNodes hCollected hTree hWithin
  | returned hTree hWithin => exact .returned (hExtends.returnTrees hTree) hWithin

theorem Arises.within {setting : Setting} {node : FragmentTree} (h : Arises setting session tree)
    (hNode : node.Within tree) : Arises setting session node := by
  cases h with
  | collected hScope hNodes hCollected hTree hWithin =>
      exact .collected hScope hNodes hCollected hTree (hNode.trans hWithin)
  | returned hTree hWithin => exact .returned hTree (hNode.trans hWithin)

/-- The invariant of reachable sessions. -/
structure Coherent (task : Task) (requests : List Request) (session : Session) : Prop where
  names : session.names.Distinct
  distinct : (requests.map Request.locations).Nodup
  known : ∀ request ∈ requests, request.Known task.toSetting requests
  notes : session.Notes requests
  assembled : ∀ key model, session.interface? key = some model →
    ∃ tree path fields bases, tree.key = key ∧ Arises task.toSetting session tree ∧
      Assembled task session path tree fields bases model
  registered : ∀ key model, session.interface? key = some model →
    session.graph.contains model.name = true

namespace Coherent

theorem initial (task : Task) {names : Names} (h : names.Reached) :
    Coherent task [] (.initial names) :=
  ⟨h.distinct, List.nodup_nil, by simp, ⟨rfl, rfl⟩, nofun, nofun⟩

/-- What was kept stays as it is in a session that goes on from this one. -/
theorem assembled_mono (h : Coherent task requests before) (hExtends : before.Extends after)
    {key : OriginKey} (hFound : before.interface? key = some model) :
    ∃ tree path fields bases, tree.key = key ∧ Arises task.toSetting after tree ∧
      Assembled task after path tree fields bases model := by
  obtain ⟨tree, path, fields, bases, hKey, hArises, hAssembled⟩ := h.assembled key model hFound
  exact ⟨tree, path, fields, bases, hKey, hArises.mono hExtends, hAssembled.mono hExtends⟩

/-- A step that keeps the interfaces and the notes. -/
theorem transfer (h : Coherent task requests before) (hExtends : before.Extends after)
    (hNames : after.names.Distinct) (hInterfaces : after.interfaces = before.interfaces)
    (hNotes : after.Notes requests) : Coherent task requests after := by
  have hSame : ∀ key, after.interface? key = before.interface? key := by
    intro key
    rw [Session.interface?, hInterfaces]
    rfl
  refine ⟨hNames, h.distinct, h.known, hNotes, fun key model hFound => ?_,
    fun key model hFound => ?_⟩
  · exact h.assembled_mono hExtends ((hSame key).symm.trans hFound)
  · exact hExtends.graph _ (h.registered key model ((hSame key).symm.trans hFound))

theorem planted (hSetting : task.toSetting.Admissible) (h : Coherent task requests session)
    (hArises : Arises task.toSetting session tree) : Planted task.toSetting requests tree := by
  cases hArises with
  | collected hScope hNodes hCollected hTree hWithin =>
      obtain ⟨_, _, hGathering⟩ :=
        Setting.gathering_of_collectIn hSetting hScope hNodes hCollected
      exact (hGathering.grown.planted hSetting hScope hNodes hTree).within hWithin
  | returned hTree hWithin =>
      obtain ⟨request, hRequest, _, rfl⟩ := h.notes.mem_of_mem_returnTrees hTree
      exact ((h.known request hRequest).rooted.planted hSetting h.known).within hWithin

/-- The key of a node tells the node. -/
theorem tree_eq (hSetting : task.toSetting.Admissible) (h : Coherent task requests session)
    {other : FragmentTree} (hTree : Arises task.toSetting session tree)
    (hOther : Arises task.toSetting session other) (hKey : tree.key = other.key) :
    tree = other :=
  (h.planted hSetting hTree).tree_eq hSetting h.distinct (h.planted hSetting hOther) hKey

/-- The interface that is kept for the key of a node is that of the node, at any path. -/
theorem assembled_of_arises (hSetting : task.toSetting.Admissible)
    (h : Coherent task requests session) (hTree : Arises task.toSetting session tree)
    (hFound : session.interface? tree.key = some model) (path : ModelPath) :
    ∃ fields bases, Assembled task session path tree fields bases model := by
  obtain ⟨other, _, _, _, hKey, hOther, hAssembled⟩ := h.assembled _ _ hFound
  rw [h.tree_eq hSetting hOther hTree hKey] at hAssembled
  exact ⟨_, _, hAssembled.movedTo path⟩

/-- Kept interfaces of one name are the same. -/
theorem interface_eq (hSetting : task.toSetting.Admissible) (h : Coherent task requests session)
    {key other : OriginKey} {model' : InterfaceModel}
    (hFound : session.interface? key = some model)
    (hOther : session.interface? other = some model') (hName : model.name = model'.name) :
    model = model' := by
  obtain ⟨tree, _, _, _, rfl, hTree, hAssembled⟩ := h.assembled _ _ hFound
  obtain ⟨tree', _, _, _, rfl, hTree', hAssembled'⟩ := h.assembled _ _ hOther
  have hKey : tree.key = tree'.key := h.names.key_eq hAssembled.name (hName ▸ hAssembled'.name)
    ((h.planted hSetting hTree).inFile_key h.known)
    ((h.planted hSetting hTree').inFile_key h.known)
  rw [hKey, hOther] at hFound
  exact (Option.some.inj hFound).symm

/-- The bases of an interface are the interfaces of the children. -/
theorem mem_bases_iff (hSetting : task.toSetting.Admissible) (h : Coherent task requests session)
    (hAssembled : Assembled task session path tree fields bases model) (base : InterfaceModel) :
    base ∈ model.bases ↔ ∃ child ∈ tree.children, session.interface? child.key = some base := by
  have hBases : ∀ base, base ∈ bases.map Prod.fst ↔
      ∃ child ∈ tree.children, session.interface? child.key = some base := by
    intro base
    constructor
    · intro hBase
      obtain ⟨entry, hEntry, rfl⟩ := List.mem_map.mp hBase
      obtain ⟨child, hChild, hFound, _⟩ := Outcome.exists_left hAssembled.children hEntry
      exact ⟨child, hChild, hFound⟩
    · rintro ⟨child, hChild, hFound⟩
      obtain ⟨entry, hEntry, hKept, _⟩ := Outcome.exists_right hAssembled.children hChild
      rw [hKept] at hFound
      exact List.mem_map.mpr ⟨entry, hEntry, Option.some.inj hFound⟩
  rw [hAssembled.bases, Build.mem_distinctByName, hBases]
  intro first hFirst second hSecond hName
  obtain ⟨_, _, hFound⟩ := (hBases first).mp hFirst
  obtain ⟨_, _, hFound'⟩ := (hBases second).mp hSecond
  exact h.interface_eq hSetting hFound hFound' hName

theorem requestName (h : Coherent task requests before) (key : OriginKey) (proposed : String) :
    Coherent task requests { before with names := (before.names.request key proposed).2 } :=
  h.transfer (.named before key proposed) (h.names.request key proposed) rfl
    ⟨h.notes.requested, h.notes.returnTrees⟩

/-- A new request is noted. -/
theorem enqueue (h : Coherent task requests before) {request : Request}
    (hNone : before.requested.lookup (.selection request.locations) = none)
    (hKnown : request.Known task.toSetting (requests ++ [request])) :
    Coherent task (requests ++ [request]) (before.enqueue request) := by
  have hExtends : before.Extends (before.enqueue request) := .enqueue hNone
  refine ⟨h.names, ?_, Request.known_concat h.known hKnown, h.notes.enqueue request,
    fun key model hFound => h.assembled_mono hExtends hFound,
    fun key model hFound => h.registered key model hFound⟩
  rw [List.map_append, List.map_singleton, ← List.concat_eq_append, List.nodup_concat]
  refine ⟨fun hMem => ?_, h.distinct⟩
  obtain ⟨earlier, hEarlier, hSame⟩ := List.mem_map.mp hMem
  exact h.notes.not_requested hNone earlier hEarlier hSame

/-- A selection set is asked for that was not asked for before. -/
theorem request (h : Coherent task requests before) {inquiry : Build.Inquiry} {name : String}
    (hNone : before.requested.lookup (.selection inquiry.locations) = none)
    (hKnown : ∀ request, inquiry.Fulfilled task.toSetting request →
      request.Known task.toSetting (requests ++ [request]))
    (hYields : (Build.request task inquiry).Yields before name after) :
    ∃ others, Coherent task others after ∧ before.Extends after ∧
      after.interfaces = before.interfaces ∧
      after.requested.lookup (.selection inquiry.locations) = some name := by
  obtain ⟨request, proposed, hFulfilled, hReturn, _, rfl⟩ := Build.yields_request hYields
  rw [← hFulfilled.locations] at hNone ⊢
  have hNamed := h.requestName request.returnTree.key proposed
  refine ⟨requests ++ [request], hNamed.enqueue hNone (hKnown request hFulfilled),
    (Session.Extends.named _ _ _).trans (.enqueue hNone), rfl, ?_⟩
  rw [Session.enqueue, List.lookup_cons_self, hReturn]

/-- What is beneath a field of a node is asked for, unless it was before. -/
theorem requestField (hSetting : task.toSetting.Admissible) (h : Coherent task requests before)
    (hTree : Arises task.toSetting before tree) (hFields : task.treeFields path tree = .ok fields)
    (hMerged : merged ∈ fields) {type : SchemaType}
    (hType : Build.innermostType? task merged = some type) (hComposite : type.isComposite = true)
    {overridden : List MergedField} {name : String}
    (hYields : (Build.requestField task merged type overridden).Yields before name after) :
    ∃ others, Coherent task others after ∧ before.Extends after ∧
      after.interfaces = before.interfaces ∧
      after.requested.lookup merged.origin = some name := by
  rcases Build.yields_requestField hYields with ⟨hKnown, rfl⟩ | ⟨hNone, hYields⟩
  · exact ⟨requests, h, .refl _, rfl, hKnown⟩
  · let inquiry := Build.fieldInquiry merged type (Build.addTrees []
      (overridden.filterMap fun base => before.returnTrees.lookup base.origin))
    have hNone : before.requested.lookup (.selection inquiry.locations) = none := hNone
    refine h.request hNone (fun request hFulfilled => ?_) hYields
    obtain ⟨hInside, hLocated⟩ := (h.planted hSetting hTree).of_merged h.known hFields hMerged
    refine (hFulfilled.asks hType hComposite).known hSetting h.known hInside hLocated
      (fun base hBase => ?_) hFulfilled.returns
    rcases Build.mem_of_mem_addTrees hBase with hNil | hBase
    · cases hNil
    · obtain ⟨other, _, hFound⟩ := List.mem_filterMap.mp hBase
      obtain ⟨earlier, hEarlier, _, hSame⟩ :=
        h.notes.mem_of_mem_returnTrees (Association.mem_of_lookup hFound)
      exact ⟨earlier, hEarlier, hSame⟩

theorem fieldModel (hSetting : task.toSetting.Admissible) (h : Coherent task requests before)
    (hTree : Arises task.toSetting before tree) (hFields : task.treeFields path tree = .ok fields)
    (hMerged : merged ∈ fields) {overridden : List MergedField}
    (hYields : (Build.fieldModel task merged overridden).Yields before field after) :
    ∃ others, Coherent task others after ∧ before.Extends after ∧
      after.interfaces = before.interfaces ∧ Declaration task after merged field := by
  obtain ⟨type, hType, ⟨hComposite, name, hName, rfl⟩ | ⟨hLeaf, hNothing, rfl, rfl⟩⟩ :=
    Build.yields_fieldModel hYields
  · obtain ⟨others, hCoherent, hExtends, hInterfaces, hRequested⟩ :=
      h.requestField hSetting hTree hFields hMerged hType hComposite hName
    exact ⟨others, hCoherent, hExtends, hInterfaces, .composite hType hComposite hRequested⟩
  · exact ⟨requests, h, .refl _, rfl, .leaf hType hLeaf hNothing⟩

/-- The fields of a node are declared, those that are to be. -/
theorem declareFields (hSetting : task.toSetting.Admissible) (h : Coherent task requests before)
    (hTree : Arises task.toSetting before tree) (hFields : task.treeFields path tree = .ok fields)
    (hLeft : left ⊆ fields)
    (hYields : (Build.declareFields task bases left).Yields before declared after) :
    ∃ others, Coherent task others after ∧ before.Extends after ∧
      after.interfaces = before.interfaces ∧
      List.Forall₂ (Declaration task after) (left.filter (Build.isDeclared task bases))
        declared := by
  induction left generalizing before requests declared with
  | nil =>
      rw [Build.declareFields, Build.yields_pure] at hYields
      obtain ⟨rfl, rfl⟩ := hYields
      exact ⟨requests, h, .refl _, rfl, .nil⟩
  | cons merged rest ih =>
      obtain ⟨hMerged, hRest⟩ := List.cons_subset.mp hLeft
      obtain ⟨overridden, hEq⟩ := Build.exists_declareFields_cons task bases merged rest
      rw [hEq] at hYields
      cases hDeclared : Build.isDeclared task bases merged with
      | false =>
          rw [hDeclared] at hYields
          rw [List.filter_cons_of_neg (by simp [hDeclared])]
          exact ih h hTree hRest hYields
      | true =>
          rw [hDeclared, if_pos rfl, Build.yields_bind] at hYields
          obtain ⟨field, middle, hField, hYields⟩ := hYields
          rw [Build.yields_bind] at hYields
          obtain ⟨more, last, hMore, hYields⟩ := hYields
          rw [Build.yields_pure] at hYields
          obtain ⟨rfl, rfl⟩ := hYields
          obtain ⟨others, hCoherent, hExtends, hInterfaces, hDeclaration⟩ :=
            h.fieldModel hSetting hTree hFields hMerged hField
          obtain ⟨others', hCoherent', hExtends', hInterfaces', hDeclarations⟩ :=
            ih hCoherent (hTree.mono hExtends) hRest hMore
          refine ⟨others', hCoherent', hExtends.trans hExtends', hInterfaces'.trans hInterfaces, ?_⟩
          rw [List.filter_cons_of_pos hDeclared]
          exact .cons (hDeclaration.mono hExtends'.requested) hDeclarations

/-- An interface is kept that was put together for its node. -/
theorem addInterface (h : Coherent task requests before)
    (hTree : Arises task.toSetting before tree) (hNew : before.interface? tree.key = none)
    (hAssembled : Assembled task before path tree fields bases model) :
    Coherent task requests (before.addInterface tree.key model) := by
  have hExtends : before.Extends (before.addInterface tree.key model) := .addInterface hNew model
  refine ⟨h.names, h.distinct, h.known, ⟨h.notes.requested, h.notes.returnTrees⟩,
    fun key found hFound => ?_, fun key found hFound => ?_⟩
  · rw [Session.interface?_addInterface] at hFound
    split at hFound
    · rename_i hSame
      cases hFound
      exact ⟨tree, path, fields, bases, hSame.symm, hTree.mono hExtends,
        hAssembled.mono hExtends⟩
    · exact h.assembled_mono hExtends hFound
  · rw [Session.interface?_addInterface] at hFound
    split at hFound
    · cases hFound
      exact Graph.contains_register_self _ (.interface model)
    · exact hExtends.graph _ (h.registered key found hFound)

/-- The interface of a node is made from those of its children. -/
theorem assemble (hSetting : task.toSetting.Admissible) (h : Coherent task requests before)
    (hTree : Arises task.toSetting before tree) (hNew : before.interface? tree.key = none)
    (hBases : List.Forall₂ (fun child base => before.interface? child.key = some base.1 ∧
      task.treeFields path child = .ok base.2) tree.children bases)
    (hYields : (Build.assemble task path tree bases).Yields before model after) :
    ∃ others, Coherent task others after ∧ before.Extends after ∧
      after.interface? tree.key = some model ∧
      ∀ key, key ≠ tree.key → after.interface? key = before.interface? key := by
  obtain ⟨fields, declared, asked, name, named, hFields, hDeclare, hName, rfl, rfl⟩ :=
    Build.yields_assemble hYields
  obtain ⟨others, hCoherent, hExtends, hInterfaces, hDeclarations⟩ :=
    h.declareFields hSetting hTree hFields (List.Subset.refl _) hDeclare
  rw [Build.yields_requestName] at hName
  obtain ⟨hName, hNamed⟩ := hName
  have hCoherent' : Coherent task others named := hNamed ▸ hCoherent.requestName tree.key _
  have hExtends' : asked.Extends named := hNamed ▸ .named asked tree.key _
  have hAll := hExtends.trans hExtends'
  have hSame : ∀ key, named.interface? key = before.interface? key := by
    intro key
    rw [hNamed, Session.interface?, hInterfaces]
    rfl
  have hNone : named.interface? tree.key = none := (hSame tree.key).trans hNew
  have hAssembled : Assembled task named path tree fields bases (.mk declared tree.condition.name
      (Build.distinctByName (bases.map Prod.fst)) name) := by
    refine ⟨hFields, hBases.imp fun _ _ hBase => ⟨hAll.interfaces _ _ hBase.1, hBase.2⟩,
      hDeclarations.imp fun _ _ hField => hField.mono hExtends'.requested, rfl, rfl, ?_⟩
    rw [hNamed]
    exact Names.nameOf?_request hName
  refine ⟨others, hCoherent'.addInterface (hTree.mono hAll) hNone hAssembled,
    hAll.trans (.addInterface hNone _), ?_, fun key hOther => ?_⟩
  · rw [Session.interface?_addInterface, if_pos rfl]
  · rw [Session.interface?_addInterface, if_neg hOther, hSame]

end Coherent

/-- The interface of a node is made and kept, and none is kept for a key that is not in the node. -/
def MakesInterface (task : Task) (path : ModelPath) (tree : FragmentTree) : Prop :=
  ∀ {requests before model after}, Coherent task requests before →
    Arises task.toSetting before tree →
    (Build.synthesize task path tree).Yields before model after →
    ∃ others, Coherent task others after ∧ before.Extends after ∧
      after.interface? tree.key = some model ∧
      ∀ key, (∀ node, FragmentTree.Within node tree → node.key ≠ key) →
        after.interface? key = before.interface? key

namespace Coherent

theorem synthesizeEach {trees : List FragmentTree}
    (hEach : ∀ tree ∈ trees, MakesInterface task path tree) (h : Coherent task requests before)
    (hTrees : ∀ tree ∈ trees, Arises task.toSetting before tree)
    (hYields : (Build.synthesizeEach task path trees).Yields before bases after) :
    ∃ others, Coherent task others after ∧ before.Extends after ∧
      List.Forall₂ (fun child base => after.interface? child.key = some base.1 ∧
        task.treeFields path child = .ok base.2) trees bases ∧
      ∀ key, (∀ tree ∈ trees, ∀ node, FragmentTree.Within node tree → node.key ≠ key) →
        after.interface? key = before.interface? key := by
  induction trees generalizing requests before bases with
  | nil =>
      rw [Build.synthesizeEach, Build.yields_pure] at hYields
      obtain ⟨rfl, rfl⟩ := hYields
      exact ⟨requests, h, .refl _, .nil, fun _ _ => rfl⟩
  | cons tree rest ih =>
      obtain ⟨model, middle, fields, more, hModel, hFields, hMore, rfl⟩ :=
        Build.yields_synthesizeEach_cons.mp hYields
      obtain ⟨others, hCoherent, hExtends, hFound, hElse⟩ :=
        hEach tree List.mem_cons_self h (hTrees tree List.mem_cons_self) hModel
      obtain ⟨others', hCoherent', hExtends', hRest, hElse'⟩ :=
        ih (fun other hOther => hEach other (List.mem_cons_of_mem _ hOther)) hCoherent
          (fun other hOther => (hTrees other (List.mem_cons_of_mem _ hOther)).mono hExtends) hMore
      refine ⟨others', hCoherent', hExtends.trans hExtends',
        .cons ⟨hExtends'.interfaces _ _ hFound, hFields⟩ hRest, fun key hKey => ?_⟩
      rw [hElse' key fun other hOther => hKey other (List.mem_cons_of_mem _ hOther)]
      exact hElse key (hKey tree List.mem_cons_self)

end Coherent

theorem makesInterface (hSetting : task.toSetting.Admissible) (tree : FragmentTree) :
    MakesInterface task path tree := by
  induction tree using FragmentTree.induct with
  | node tree ih =>
      intro requests before model after h hTree hYields
      rcases Build.yields_synthesize.mp hYields with
        ⟨hKnown, rfl⟩ | ⟨hNone, bases, middle, hBases, hYields⟩
      · exact ⟨requests, h, .refl _, hKnown, fun _ _ => rfl⟩
      · obtain ⟨others, hCoherent, hExtends, hEach, hElse⟩ := h.synthesizeEach ih
          (fun child hChild => hTree.within (.inner hChild (.self _))) hBases
        have hNew : middle.interface? tree.key = none := by
          rw [hElse tree.key fun child hChild node hNode =>
            FragmentTree.key_ne_of_within_child hChild hNode]
          exact hNone
        obtain ⟨others', hCoherent', hExtends', hFound, hElse'⟩ :=
          hCoherent.assemble hSetting (hTree.mono hExtends) hNew hEach hYields
        refine ⟨others', hCoherent', hExtends.trans hExtends', hFound, fun key hKey => ?_⟩
        rw [hElse' key (hKey tree (.self _)).symm, hElse key]
        exact fun child hChild node hNode => hKey node (.inner hChild hNode)

/-- The selection set of an operation is asked for. -/
theorem Coherent.requestOperation (hSetting : task.toSetting.Admissible)
    (h : Coherent task requests before) {operation : Operation}
    (hOperation : operation ∈ task.document.operations)
    (hNone : before.requested.lookup
      (.selection [task.document.locate operation.position]) = none)
    (hYields : (Build.requestOperation task operation).Yields before () after) :
    ∃ others, Coherent task others after := by
  obtain ⟨root, declared, name, _, hRoot, hRequest⟩ := Build.yields_requestOperation hYields
  let inquiry := Build.operationInquiry task operation declared
  have hNone : before.requested.lookup (.selection inquiry.locations) = none := hNone
  have hKnown : ∀ request, inquiry.Fulfilled task.toSetting request →
      request.Known task.toSetting (requests ++ [request]) := by
    intro request hFulfilled
    refine Request.known_of_operation hSetting hOperation hFulfilled.locations
      hFulfilled.selections ?_ ?_ hFulfilled.returns requests
    · rw [hFulfilled.declared]
      exact hSetting.knows_of_type? hRoot
    · intro details hDetails
      rw [hFulfilled.operation] at hDetails
      cases hDetails
      rfl
  obtain ⟨others, hCoherent, _⟩ := h.request hNone hKnown hRequest
  exact ⟨others, hCoherent⟩

/-- Every reachable session is coherent. -/
theorem Session.Reachable.coherent (hSetting : task.toSetting.Admissible)
    (h : session.Reachable task) : ∃ requests, Coherent task requests session := by
  induction h with
  | initial hNames => exact ⟨[], .initial task hNames⟩
  | named key proposed _ ih =>
      obtain ⟨requests, hCoherent⟩ := ih
      exact ⟨requests, hCoherent.requestName key proposed⟩
  | registered model _ ih =>
      obtain ⟨requests, hCoherent⟩ := ih
      exact ⟨requests, hCoherent.transfer (.registered _ model) hCoherent.names rfl
        ⟨hCoherent.notes.requested, hCoherent.notes.returnTrees⟩⟩
  | queued pending _ ih =>
      obtain ⟨requests, hCoherent⟩ := ih
      exact ⟨requests, hCoherent.transfer ⟨⟨fun _ _ h => h, fun _ _ h => h⟩, fun _ _ h => h,
        List.Subset.refl _, fun _ h => h⟩ hCoherent.names rfl
        ⟨hCoherent.notes.requested, hCoherent.notes.returnTrees⟩⟩
  | operation _ hOperation hNone hYields ih =>
      obtain ⟨requests, hCoherent⟩ := ih
      exact hCoherent.requestOperation hSetting hOperation hNone hYields
  | synthesized _ hTree hYields ih =>
      obtain ⟨requests, hCoherent⟩ := ih
      obtain ⟨others, hMade, _⟩ := makesInterface hSetting _ hCoherent hTree hYields
      exact ⟨others, hMade⟩

end ResponseModels
