import ResponseModels.Proofs.Model.Graph
import ResponseModels.Proofs.Model.Steps
import ResponseModels.Proofs.Run.Requests

/-! What holds of a session while a document is compiled. Interfaces are kept by the keys of their
trees, and each is what its tree says; models stand in the graph under the names that their keys
were given. Steps only add to a session, and all that was said of it stays true. -/
namespace ResponseModels

open GraphQL

namespace Session

variable {session : Session}

@[simp] theorem pending_register (model : Model) :
    (session.register model).pending = session.pending :=
  rfl

theorem interface?_addInterface (key other : OriginKey) (model : InterfaceModel) :
    (session.addInterface key model).interface? other =
      if other = key then some model else session.interface? other := by
  change List.lookup other ((key, model) :: session.interfaces) = _
  rw [List.lookup_cons]
  by_cases hSame : other = key
  · simp [hSame]
  · have hDiffer : (other == key) = false := by simpa using hSame
    rw [hDiffer, if_neg hSame]
    rfl

theorem interface?_addInterface_of_some {key other : OriginKey} {model found : InterfaceModel}
    (hNew : session.interface? key = none) (h : session.interface? other = some found) :
    (session.addInterface key model).interface? other = some found := by
  rw [interface?_addInterface, if_neg, h]
  rintro rfl
  rw [hNew] at h
  cases h

end Session

/-- What was named and kept stays. -/
structure Session.Keeps (before after : Session) : Prop where
  names : ∀ key name, before.names.nameOf? key = some name → after.names.nameOf? key = some name
  interfaces : ∀ key model, before.interface? key = some model →
    after.interface? key = some model

theorem Session.Keeps.refl (session : Session) : session.Keeps session :=
  ⟨fun _ _ h => h, fun _ _ h => h⟩

theorem Session.Keeps.trans {first second third : Session} (h : first.Keeps second)
    (h' : second.Keeps third) : first.Keeps third :=
  ⟨fun key name hName => h'.names key name (h.names key name hName),
    fun key model hModel => h'.interfaces key model (h.interfaces key model hModel)⟩

/-- From one session to a later one, while a request is modelled: what was named, kept or
registered stays, and the requests that come in wait behind those that waited before. -/
structure Onward (setting : Setting) (parent : Request) (before after : Session)
    (requests others : List Request) : Prop extends Session.Keeps before after where
  graph : ∀ name model, before.graph.get? name = some model → after.graph.get? name = some model
  requests : ∃ more, others = requests ++ more ∧ after.pending = before.pending ++ more ∧
    ∀ request ∈ more, parent.AskedIn setting request

namespace Onward

variable {setting : Setting} {parent : Request} {first second third : Session}
  {requests others more : List Request}

theorem refl (session : Session) (requests : List Request) :
    Onward setting parent session session requests requests :=
  ⟨.refl _, fun _ _ h => h, [], by simp⟩

theorem trans (h : Onward setting parent first second requests others)
    (h' : Onward setting parent second third others more) :
    Onward setting parent first third requests more := by
  obtain ⟨added, rfl, hPending, hAsked⟩ := h.requests
  obtain ⟨added', rfl, hPending', hAsked'⟩ := h'.requests
  refine ⟨h.toKeeps.trans h'.toKeeps,
    fun name model hModel => h'.graph name model (h.graph name model hModel),
    added ++ added', ?_, ?_, ?_⟩
  · rw [List.append_assoc]
  · rw [hPending', hPending, List.append_assoc]
  · intro request hRequest
    rcases List.mem_append.mp hRequest with hRequest | hRequest
    · exact hAsked request hRequest
    · exact hAsked' request hRequest

theorem subset (h : Onward setting parent first second requests others) : requests ⊆ others := by
  obtain ⟨added, rfl, _⟩ := h.requests
  exact List.subset_append_left _ _

end Onward

/-- The requests are noted in the session, the latest first, by the nodes that they ask for. -/
structure Session.Notes (session : Session) (requests : List Request) : Prop where
  requested : session.requested =
    (requests.map fun request =>
      (Origin.selection request.locations, request.returnTypeName)).reverse
  returnTrees : session.returnTrees =
    (requests.map fun request => (Origin.selection request.locations, request.returnTree)).reverse

namespace Session.Notes

variable {session : Session} {requests : List Request}

/-- A selection set that was asked for is found by its nodes. -/
theorem mem_of_requested (h : session.Notes requests) {locations : List Location} {name : String}
    (hFound : session.requested.lookup (.selection locations) = some name) :
    ∃ request ∈ requests, request.locations = locations ∧ request.returnTypeName = name := by
  have hMem := Association.mem_of_lookup hFound
  rw [h.requested, List.mem_reverse, List.mem_map] at hMem
  obtain ⟨request, hRequest, hSame⟩ := hMem
  injection hSame with hOrigin hName
  injection hOrigin with hLocations
  exact ⟨request, hRequest, hLocations, hName⟩

theorem not_requested (h : session.Notes requests) {locations : List Location}
    (hNone : session.requested.lookup (.selection locations) = none) :
    ∀ earlier ∈ requests, earlier.locations ≠ locations := by
  rintro earlier hEarlier rfl
  rw [List.lookup_eq_none_iff] at hNone
  have hMem : (Origin.selection earlier.locations, earlier.returnTypeName) ∈
      session.requested := by
    rw [h.requested, List.mem_reverse]
    exact List.mem_map_of_mem hEarlier
  simpa using hNone _ hMem

theorem mem_of_mem_returnTrees (h : session.Notes requests) {origin : Origin}
    {tree : FragmentTree} (hMem : (origin, tree) ∈ session.returnTrees) :
    ∃ request ∈ requests, .selection request.locations = origin ∧ tree = request.returnTree := by
  rw [h.returnTrees, List.mem_reverse, List.mem_map] at hMem
  obtain ⟨request, hRequest, hSame⟩ := hMem
  injection hSame with hOrigin hTree
  exact ⟨request, hRequest, hOrigin, hTree.symm⟩

theorem enqueue (h : session.Notes requests) (request : Request) :
    (session.enqueue request).Notes (requests ++ [request]) := by
  constructor
  · rw [List.map_append, List.reverse_append, ← h.requested]
    rfl
  · rw [List.map_append, List.reverse_append, ← h.returnTrees]
    rfl

end Session.Notes

variable {task : Task} {parents requests active others : List Request} {session after : Session}

/-- The declaration of a merged field. A composite one refers to the request for the same nodes. -/
structure Declares (requests : List Request) (merged : MergedField) (field : FieldModel) :
    Prop where
  fieldName : field.fieldName = merged.field.name
  responseName : field.responseName = merged.responseKey
  typed : field.annotation = merged.field.annotation
  target : ∀ model, field.target = .composite model →
    ∃ request ∈ requests, request.locations = merged.locations ∧ request.returnTypeName = model

theorem Declares.mono (hMore : requests ⊆ others) {merged : MergedField}
    {field : FieldModel} (h : Declares requests merged field) : Declares others merged field := by
  refine ⟨h.fieldName, h.responseName, h.typed, fun model hModel => ?_⟩
  obtain ⟨request, hRequest, hRest⟩ := h.target model hModel
  exact ⟨request, hMore hRequest, hRest⟩

/-- The interface of a tree: its bases are the interfaces of the tree's children, it declares
fields of the tree, and no field of the tree is missing from it and its bases. -/
structure Represents (task : Task) (requests : List Request) (session : Session)
    (tree : FragmentTree) (model : InterfaceModel) : Prop where
  name : session.names.nameOf? tree.key = some model.name
  type : model.type = tree.condition.name
  bases : ∀ base ∈ model.bases, ∃ child ∈ tree.children,
    session.interface? child.key = some base
  extended : ∀ child ∈ tree.children, ∃ base ∈ model.bases,
    session.interface? child.key = some base
  fields : ∃ path fields, task.treeFields path tree = .ok fields ∧
    (∀ field ∈ model.fields, ∃ merged ∈ fields, Declares requests merged field) ∧
    ∀ merged ∈ fields, merged.responseKey ∈ model.fieldNames

theorem Represents.mono {tree : FragmentTree} {model : InterfaceModel} (hMore : requests ⊆ others)
    (hKeeps : session.Keeps after) (h : Represents task requests session tree model) :
    Represents task others after tree model := by
  refine ⟨hKeeps.names _ _ h.name, h.type, ?_, ?_, ?_⟩
  · intro base hBase
    obtain ⟨child, hChild, hFound⟩ := h.bases base hBase
    exact ⟨child, hChild, hKeeps.interfaces _ _ hFound⟩
  · intro child hChild
    obtain ⟨base, hBase, hFound⟩ := h.extended child hChild
    exact ⟨base, hBase, hKeeps.interfaces _ _ hFound⟩
  · obtain ⟨path, fields, hFields, hDeclared, hCovered⟩ := h.fields
    refine ⟨path, fields, hFields, ?_, hCovered⟩
    intro field hField
    obtain ⟨merged, hMerged, hDeclares⟩ := hDeclared field hField
    exact ⟨merged, hMerged, hDeclares.mono hMore⟩

/-- The parser of a request. -/
structure Reads (setting : Setting) (session : Session) (request : Request)
    (parser : ParserModel) : Prop where
  returnType : session.interface? request.returnTree.key = some parser.returnType
  source : parser.source = request.source
  types : parser.discriminators.keys =
    (setting.schema.possibleTypes request.declared.name).map FieldedType.name

/-- The key that a model of a session was named by. -/
inductive Owns (setting : Setting) (parents : List Request) (session : Session) :
    OriginKey → Model → Prop
  | interface {key : OriginKey} {model : InterfaceModel} :
    session.interface? key = some model → Owns setting parents session key (.interface model)
  | caseClass {request : Request} {type : String} {model : ClassModel} :
    request ∈ parents →
    Owns setting parents session (.leaf (.modelClass type request.locations)) (.class model)
  | resultParser {request : Request} {parser : ParserModel} :
    request ∈ parents → Reads setting session request parser →
    Owns setting parents session (.leaf (.resultParser request.locations)) (.parser parser)
  | operation {request : Request} {details : OperationRequest} {model : OperationModel} :
    request ∈ parents → request.operation = some details →
    Owns setting parents session (.leaf (.operation details.location)) (.operation model)

/-- Where a request for a field was made: in a tree whose children have their interfaces. The
return tree takes in those of the requests that these interfaces declare the field with. -/
structure PlacedAt (task : Task) (parents requests : List Request) (session : Session)
    (request : Request) (tree : FragmentTree) (merged : MergedField) : Prop where
  grown : ∃ parent ∈ parents, parent.Grows task.toSetting tree
  selected : ∃ path fields, task.treeFields path tree = .ok fields ∧ merged ∈ fields
  asks : request.Asks task.toSetting merged
  takesIn : ∀ child ∈ tree.children, ∃ base, session.interface? child.key = some base ∧
    ∀ field ∈ base.fields, field.responseName = merged.responseKey →
      ∀ model, field.target = .composite model →
        ∃ earlier ∈ requests, earlier.returnTypeName = model ∧
          earlier.returnTree.key ∈ request.returnTree.allKeys

theorem PlacedAt.mono {request : Request} {tree : FragmentTree} {merged : MergedField}
    (hActive : parents ⊆ active) (hMore : requests ⊆ others) (hKeeps : session.Keeps after)
    (h : PlacedAt task parents requests session request tree merged) :
    PlacedAt task active others after request tree merged := by
  obtain ⟨parent, hParent, hGrows⟩ := h.grown
  refine ⟨⟨parent, hActive hParent, hGrows⟩, h.selected, h.asks, fun child hChild => ?_⟩
  obtain ⟨base, hFound, hFields⟩ := h.takesIn child hChild
  refine ⟨base, hKeeps.interfaces _ _ hFound, fun field hField hKey model hModel => ?_⟩
  obtain ⟨earlier, hEarlier, hRest⟩ := hFields field hField hKey model hModel
  exact ⟨earlier, hMore hEarlier, hRest⟩

/-- The invariant of a session: names are given one to one, requests have come about as they
should and are found by their nodes, and models are kept under their keys and names. -/
structure Sound (task : Task) (parents requests : List Request) (session : Session) : Prop where
  names : session.names.Distinct
  history : History task.toSetting parents requests
  active : parents ⊆ requests
  requested : session.requested =
    (requests.map fun request =>
      (Origin.selection request.locations, request.returnTypeName)).reverse
  returnTrees : session.returnTrees =
    (requests.map fun request => (Origin.selection request.locations, request.returnTree)).reverse
  named : ∀ request ∈ requests,
    session.names.nameOf? request.returnTree.key = some request.returnTypeName
  placed : ∀ request ∈ requests, request.operation = none →
    ∃ tree merged, PlacedAt task parents requests session request tree merged
  represents : ∀ key model, session.interface? key = some model →
    ∃ tree, tree.key = key ∧ Rooted task.toSetting requests tree ∧
      (∃ parent ∈ parents, parent.Grows task.toSetting tree) ∧
      Represents task requests session tree model
  kept : ∀ key model, session.interface? key = some model →
    session.graph.get? model.name = some (.interface model)
  keyed : session.graph.models.Keyed Model.name
  owned : ∀ name model, session.graph.get? name = some model →
    ∃ key, Owns task.toSetting parents session key model ∧ session.names.nameOf? key = some name

theorem Reads.mono {setting : Setting} (hKeeps : session.Keeps after) {request : Request}
    {parser : ParserModel} (h : Reads setting session request parser) :
    Reads setting after request parser :=
  ⟨hKeeps.interfaces _ _ h.returnType, h.source, h.types⟩

theorem Owns.mono {setting : Setting} (hActive : parents ⊆ active) (hKeeps : session.Keeps after)
    {key : OriginKey} {model : Model} (h : Owns setting parents session key model) :
    Owns setting active after key model := by
  cases h with
  | interface hFound => exact .interface (hKeeps.interfaces _ _ hFound)
  | caseClass hRequest => exact .caseClass (hActive hRequest)
  | resultParser hRequest hReads => exact .resultParser (hActive hRequest) (hReads.mono hKeeps)
  | operation hRequest hDetails => exact .operation (hActive hRequest) hDetails

namespace Sound

variable {tree : FragmentTree} {model : InterfaceModel}

theorem notes (h : Sound task parents requests session) : session.Notes requests :=
  ⟨h.requested, h.returnTrees⟩

theorem known (hSetting : task.toSetting.Admissible) (h : Sound task parents requests session) :
    ∀ request ∈ requests, request.Known task.toSetting requests :=
  h.history.known hSetting

/-! What is known of a session stays true of a later one, and with more requests. -/

theorem placed_mono (h : Sound task parents requests session) (hActive : parents ⊆ active)
    (hMore : requests ⊆ others) (hKeeps : session.Keeps after) {request : Request}
    (hRequest : request ∈ requests) (hNone : request.operation = none) :
    ∃ tree merged, PlacedAt task active others after request tree merged := by
  obtain ⟨tree, merged, hPlaced⟩ := h.placed request hRequest hNone
  exact ⟨tree, merged, hPlaced.mono hActive hMore hKeeps⟩

theorem represents_mono (h : Sound task parents requests session) (hActive : parents ⊆ active)
    (hMore : requests ⊆ others) (hKeeps : session.Keeps after) {key : OriginKey}
    (hFound : session.interface? key = some model) :
    ∃ tree, tree.key = key ∧ Rooted task.toSetting others tree ∧
      (∃ parent ∈ active, parent.Grows task.toSetting tree) ∧
      Represents task others after tree model := by
  obtain ⟨tree, hKey, hRooted, ⟨parent, hParent, hGrows⟩, hRepresents⟩ :=
    h.represents key model hFound
  exact ⟨tree, hKey, hRooted.mono hMore, ⟨parent, hActive hParent, hGrows⟩,
    hRepresents.mono hMore hKeeps⟩

theorem owned_mono (h : Sound task parents requests session) (hActive : parents ⊆ active)
    (hKeeps : session.Keeps after) {name : String} {known : Model}
    (hKnown : session.graph.get? name = some known) :
    ∃ key, Owns task.toSetting active after key known ∧
      after.names.nameOf? key = some name := by
  obtain ⟨key, hOwns, hKey⟩ := h.owned name known hKnown
  exact ⟨key, hOwns.mono hActive hKeeps, hKeeps.names _ _ hKey⟩

theorem mono_parents (hActive : parents ⊆ active) (hIn : active ⊆ requests)
    (h : Sound task parents requests session) : Sound task active requests session :=
  have hAll : requests ⊆ requests := List.Subset.refl _
  ⟨h.names, h.history.mono hActive, hIn, h.requested, h.returnTrees, h.named,
    fun _ hRequest hNone => h.placed_mono hActive hAll (.refl _) hRequest hNone,
    fun _ _ hFound => h.represents_mono hActive hAll (.refl _) hFound, h.kept, h.keyed,
    fun _ _ hKnown => h.owned_mono hActive (.refl _) hKnown⟩

/-- A kept interface is that of any rooted tree with its key. -/
theorem represents_tree (hSetting : task.toSetting.Admissible)
    (h : Sound task parents requests session) (hRooted : Rooted task.toSetting requests tree)
    (hFound : session.interface? tree.key = some model) :
    Represents task requests session tree model := by
  obtain ⟨other, hKey, hOther, _, hRepresents⟩ := h.represents _ _ hFound
  rwa [h.history.tree_eq hSetting hOther hRooted hKey] at hRepresents

theorem mem_fieldNamesOf {models : List InterfaceModel} {key : String} :
    key ∈ InterfaceModel.fieldNamesOf models ↔ ∃ model ∈ models, key ∈ model.fieldNames := by
  induction models with
  | nil => simp [InterfaceModel.fieldNamesOf]
  | cons first rest ih => simp [InterfaceModel.fieldNamesOf, ih]

theorem mem_fieldNames {key : String} :
    key ∈ model.fieldNames ↔ (∃ field ∈ model.fields, field.responseName = key) ∨
      ∃ base ∈ model.bases, key ∈ base.fieldNames := by
  cases model with
  | mk fields type bases name =>
      rw [InterfaceModel.fieldNames, List.mem_append, List.mem_map, mem_fieldNamesOf]
      rfl

/-- The fields of the interface of a tree are those of the field nodes that the tree holds. -/
theorem mem_fieldNames_iff (hSetting : task.toSetting.Admissible)
    (h : Sound task parents requests session) (hRooted : Rooted task.toSetting requests tree)
    (hFound : session.interface? tree.key = some model) (key : String) :
    key ∈ model.fieldNames ↔ tree.Exposes key := by
  induction tree using FragmentTree.induct generalizing model with
  | node tree ih =>
      have hRepresents := h.represents_tree hSetting hRooted hFound
      have hChild : ∀ child ∈ tree.children, Rooted task.toSetting requests child :=
        fun child hChild => hRooted.within (.inner hChild (.self _))
      obtain ⟨path, fields, hFields, hDeclared, hCovered⟩ := hRepresents.fields
      obtain ⟨occurrences, hMerged, hMerges⟩ := Setting.merged_of_treeFields hFields
      constructor
      · intro hKey
        rcases mem_fieldNames.mp hKey with ⟨field, hField, rfl⟩ | ⟨base, hBase, hInner⟩
        · obtain ⟨merged, hMem, hDeclares⟩ := hDeclared field hField
          obtain ⟨first, hFirst, hSame, _⟩ := (hMerged.each merged hMem).head_node
          rw [hDeclares.responseName, ← hSame]
          exact ⟨first, ((hMerges first).mp hFirst).holds, rfl⟩
        · obtain ⟨child, hMem, hKept⟩ := hRepresents.bases base hBase
          exact FragmentTree.exposes_iff.mpr
            (.inr ⟨child, hMem, (ih child hMem (hChild child hMem) hKept).mp hInner⟩)
      · intro hExposes
        rcases FragmentTree.exposes_iff.mp hExposes with
          ⟨occurrence, hSelects, rfl⟩ | ⟨child, hMem, hInner⟩
        · obtain ⟨merged, hMem, hSame⟩ :=
            hMerged.covered occurrence ((hMerges occurrence).mpr (.own hSelects))
          exact hSame ▸ hCovered merged hMem
        · obtain ⟨base, hBase, hKept⟩ := hRepresents.extended child hMem
          exact mem_fieldNames.mpr
            (.inr ⟨base, hBase, (ih child hMem (hChild child hMem) hKept).mpr hInner⟩)

/-- Kept interfaces of one name are the same. -/
theorem interface_eq (hSetting : task.toSetting.Admissible)
    (h : Sound task parents requests session) {key other : OriginKey} {model' : InterfaceModel}
    (hFound : session.interface? key = some model)
    (hOther : session.interface? other = some model') (hName : model.name = model'.name) :
    key = other ∧ model = model' := by
  obtain ⟨tree, rfl, hRooted, _, hRepresents⟩ := h.represents _ _ hFound
  obtain ⟨tree', rfl, hRooted', _, hRepresents'⟩ := h.represents _ _ hOther
  have hKnown := h.known hSetting
  have hKey : tree.key = tree'.key := h.names.key_eq hRepresents.name
    (hName ▸ hRepresents'.name) (hRooted.inFile_key hKnown) (hRooted'.inFile_key hKnown)
  refine ⟨hKey, ?_⟩
  rw [hKey, hOther] at hFound
  exact (Option.some.inj hFound).symm

/-- The keys of models all lie in the document's file. -/
theorem inFile_of_owns (hSetting : task.toSetting.Admissible)
    (h : Sound task parents requests session) {key : OriginKey} {model : Model}
    (hOwns : Owns task.toSetting parents session key model) :
    key.inFile task.document.file = key := by
  have hKnown := h.known hSetting
  cases hOwns with
  | interface hFound =>
      obtain ⟨tree, rfl, hRooted, _⟩ := h.represents _ _ hFound
      exact hRooted.inFile_key hKnown
  | caseClass hRequest =>
      simp only [OriginKey.leaf, OriginKey.inFile, OriginKey.inFileAll, Origin.inFile]
      rw [(hKnown _ (h.active hRequest)).inFile_locations]
  | resultParser hRequest _ =>
      simp only [OriginKey.leaf, OriginKey.inFile, OriginKey.inFileAll, Origin.inFile]
      rw [(hKnown _ (h.active hRequest)).inFile_locations]
  | operation hRequest hDetails =>
      obtain ⟨position, hPosition⟩ := (hKnown _ (h.active hRequest)).operated _ hDetails
      simp only [OriginKey.leaf, OriginKey.inFile, OriginKey.inFileAll, Origin.inFile]
      rw [hPosition, Document.inFile_locate]

/-- A tree's key is no other model's than that of its interface. -/
theorem interface_of_owns (hRooted : Rooted task.toSetting requests tree) {model : Model}
    (hOwns : Owns task.toSetting parents session tree.key model) :
    ∃ interface, model = .interface interface ∧ session.interface? tree.key = some interface := by
  have hHead := (hRooted tree (.self _)).origin_cases
  have hOrigin : tree.key.origin = tree.branch.origin := by
    rw [tree.key_eq]
    rfl
  rw [← hOrigin] at hHead
  generalize tree.key = key at hOwns hHead
  cases hOwns with
  | interface hFound => exact ⟨_, rfl, hFound⟩
  | caseClass => rcases hHead with ⟨_, _, hHead⟩ | ⟨_, _, hHead⟩ | ⟨_, hHead⟩ <;> cases hHead
  | resultParser => rcases hHead with ⟨_, _, hHead⟩ | ⟨_, _, hHead⟩ | ⟨_, hHead⟩ <;> cases hHead
  | operation => rcases hHead with ⟨_, _, hHead⟩ | ⟨_, _, hHead⟩ | ⟨_, hHead⟩ <;> cases hHead

end Sound

end ResponseModels
