import ResponseModels.Proofs.Run.Rounds
import ResponseModels.Proofs.Run.Uniform

/-! The models of composite fields. A field refers to the model that was requested first for the
same nodes, and that model is a view of the type which the field had where it was requested. The
field itself may be of another type, unless all nodes of a field agree on its type. -/
namespace ResponseModels

open GraphQL

variable {task : Task} {setting : Setting} {names : Names} {operations : List Operation}
  {parents requests taken : List Request} {session : Session} {request : Request}
  {tree : FragmentTree} {path : ModelPath} {fields : List MergedField} {merged : MergedField}

/-- The model is a view of the type, and a parser reads the values of the field into it, whichever
of the possible types they have. -/
def Graph.ModelsField (graph : Graph) (schema : Schema) (field : FieldModel)
    (model type : String) : Prop :=
  ∃ interface, graph.interface? model = some interface ∧ interface.type = type ∧
    ∃ parser ∈ graph.parsers, parser.returnType = interface ∧
      (∃ parent, parser.source = .field field.fieldName parent field.responseName) ∧
      parser.discriminators.keys = (schema.possibleTypes type).map FieldedType.name

/-- The first node of a merged field tells its name and its response key. -/
theorem Rooted.exists_first (hSetting : setting.Admissible)
    (hKnown : ∀ request ∈ requests, request.Known setting requests)
    (h : Rooted setting requests tree) (hFields : setting.treeFields path tree = .ok fields)
    (hMerged : merged ∈ fields) :
    ∃ node : FieldNode, node.selection ∈ setting.document.nodes ∧ node.name = merged.field.name ∧
      node.responseKey = merged.responseKey ∧
      merged.locations.head? = some (setting.document.locate node.position) := by
  obtain ⟨occurrences, hMerge, hMerges⟩ := Setting.merged_of_treeFields hFields
  have hFrom := hMerge.each merged hMerged
  obtain ⟨first, hFirst, hKey, hField, hNode⟩ := hFrom.head_node
  obtain ⟨subtree, hWithin, hType, hMem⟩ := ((hMerges first).mp hFirst).holds
  have hHead := h subtree hWithin
  have hKnows : setting.Knows subtree.branch.condition := hHead.knows hSetting hKnown
  have hKeyed : first.type.Keyed := by
    rw [hType]
    exact hSetting.schema.wellFormed.keyed_of_type? hKnows
  refine ⟨first.node, hHead.subset_nodes hKnown hMem, ?_, hKey, ?_⟩
  · exact (hKeyed.name_of_selectable? hField).symm
  · rw [hFrom.locations, List.head?_map, hNode, Option.map_some]

/-- Fields that are merged from the same nodes have one name and one response key. -/
theorem Rooted.name_eq_of_locations (hSetting : setting.Admissible)
    (hKnown : ∀ request ∈ requests, request.Known setting requests)
    (h : Rooted setting requests tree) (hFields : setting.treeFields path tree = .ok fields)
    (hMerged : merged ∈ fields) {tree' : FragmentTree} (h' : Rooted setting requests tree')
    {path' : ModelPath} {fields' : List MergedField} {merged' : MergedField}
    (hFields' : setting.treeFields path' tree' = .ok fields') (hMerged' : merged' ∈ fields')
    (hSame : merged.locations = merged'.locations) :
    merged.field.name = merged'.field.name ∧ merged.responseKey = merged'.responseKey := by
  obtain ⟨node, hNode, hName, hKey, hHead⟩ := h.exists_first hSetting hKnown hFields hMerged
  obtain ⟨node', hNode', hName', hKey', hHead'⟩ :=
    h'.exists_first hSetting hKnown hFields' hMerged'
  rw [← hSame, hHead] at hHead'
  have hPosition := Document.locate_inj (Option.some.inj hHead')
  have hEqual := FieldNode.selection_inj (hSetting.positions.node_eq hNode hNode' hPosition)
  rw [← hName, ← hName', ← hKey, ← hKey', hEqual]
  exact ⟨rfl, rfl⟩

/-- A request for the nodes of a merged field was made for a field too. -/
theorem History.askedIn (hSetting : setting.Admissible) (h : History setting parents requests)
    (hRequest : request ∈ requests) (hRooted : Rooted setting requests tree)
    (hFields : setting.treeFields path tree = .ok fields) (hMerged : merged ∈ fields)
    (hSame : request.locations = merged.locations) :
    ∃ parent ∈ parents, parent ∈ requests ∧ parent.AskedIn setting request := by
  obtain ⟨prior, hPrior, hMade⟩ := h.made hRequest
  cases hMade with
  | operation hOperation hLocations =>
      have hNone := hRooted.operation_not_mem hSetting (h.known hSetting) hFields hMerged hOperation
      rw [← hSame, hLocations] at hNone
      exact absurd (List.mem_singleton.mpr rfl) hNone
  | field hActive hParent hGrows hFields' hMerged' hAsks =>
      exact ⟨_, hActive, hPrior hParent, _, _, _, hGrows, hFields', _, hMerged', hAsks⟩

/-- The request is for a field of the same name and response key. -/
theorem History.source_eq (hSetting : setting.Admissible) (h : History setting parents requests)
    (hRequest : request ∈ requests) (hRooted : Rooted setting requests tree)
    (hFields : setting.treeFields path tree = .ok fields) (hMerged : merged ∈ fields)
    (hSame : request.locations = merged.locations) :
    ∃ parent, request.source = .field merged.field.name parent merged.responseKey := by
  have hKnown := h.known hSetting
  obtain ⟨parent, _, hParent, tree', path', fields', hGrows, hFields', merged', hMerged', hAsks⟩ :=
    h.askedIn hSetting hRequest hRooted hFields hMerged hSame
  have hRooted' := (hKnown _ hParent).rooted_of_grows hSetting hParent hGrows
  obtain ⟨hName, hKey⟩ := hRooted.name_eq_of_locations hSetting hKnown hFields hMerged hRooted'
    hFields' hMerged' (hSame.symm.trans hAsks.locations)
  rw [hName, hKey]
  exact ⟨_, hAsks.source⟩

/-- In a uniform run, the request is at the field's own type. -/
theorem History.declared_name_eq (hSetting : setting.Admissible)
    (hUniform : GrowUniformly setting parents) (h : History setting parents requests)
    (hRequest : request ∈ requests) (hRooted : Rooted setting requests tree)
    (hTree : setting.Uniform tree) (hFields : setting.treeFields path tree = .ok fields)
    (hMerged : merged ∈ fields) (hSame : request.locations = merged.locations) :
    request.declared.name = merged.field.annotation.innermost.name := by
  have hKnown := h.known hSetting
  obtain ⟨parent, hActive, hParent, tree', path', fields', hGrows, hFields', merged', hMerged',
    hAsks⟩ := h.askedIn hSetting hRequest hRooted hFields hMerged hSame
  have hRooted' := (hKnown _ hParent).rooted_of_grows hSetting hParent hGrows
  obtain ⟨location, hLocation⟩ := Setting.exists_location hFields hMerged
  have hShared := hLocation
  rw [← hSame, hAsks.locations] at hShared
  rw [(h.agreeing hSetting hUniform).innermost_eq hSetting hKnown hRooted hRooted' hTree
    (hUniform _ hActive _ hGrows) hFields hMerged hFields' hMerged' hLocation hShared]
  exact hSetting.schema.wellFormed.name_of_type? hAsks.declared

/-- The request was made for the nodes that are merged into the field of the interface. -/
def RequestedFor (task : Task) (requests : List Request) (session : Session)
    (interface : InterfaceModel) (field : FieldModel) (request : Request) : Prop :=
  ∃ tree path fields merged, (∃ parent ∈ requests, parent.Grows task.toSetting tree) ∧
    session.interface? tree.key = some interface ∧ task.treeFields path tree = .ok fields ∧
    merged ∈ fields ∧ Declares requests merged field ∧
    request ∈ requests ∧ request.locations = merged.locations

theorem RequestedFor.mem {interface : InterfaceModel} {field : FieldModel}
    (h : RequestedFor task requests session interface field request) : request ∈ requests := by
  obtain ⟨_, _, _, _, _, _, _, _, _, hRequest, _⟩ := h
  exact hRequest

namespace Finished

variable {interface : InterfaceModel} {field : FieldModel}

/-- When a run is over, there is the request for each composite field of an interface. -/
theorem exists_requestedFor (hStart : Startable task names operations)
    (h : Finished task names operations taken session)
    (hInterface : interface ∈ session.graph.interfaces) (hField : field ∈ interface.fields)
    {model : String} (hModel : field.target = .composite model) :
    ∃ request, RequestedFor task taken session interface field request ∧
      request.returnTypeName = model := by
  obtain ⟨tree, _, hGrows, hKept, hRepresents⟩ := (h.sound hStart).exists_tree hInterface
  obtain ⟨path, fields, hFields, hDeclared, _⟩ := hRepresents.fields
  obtain ⟨merged, hMerged, hDeclares⟩ := hDeclared field hField
  obtain ⟨request, hRequest, hLocations, hName⟩ := hDeclares.target model hModel
  exact ⟨request, ⟨tree, path, fields, merged, hGrows, hKept, hFields, hMerged, hDeclares,
    hRequest, hLocations⟩, hName⟩

/-- The request for a field has modelled the field at the type that the request is at. -/
theorem modelsField (hStart : Startable task names operations)
    (h : Finished task names operations taken session)
    (hFor : RequestedFor task taken session interface field request) :
    session.graph.ModelsField task.schema field request.returnTypeName request.declared.name := by
  have hSetting := hStart.setting
  have hSound := h.sound hStart
  obtain ⟨tree, path, fields, merged, ⟨parent, hParent, hGrows⟩, _, hFields, hMerged, hDeclares,
    hRequest, hSame⟩ := hFor
  have hRooted := (hSound.known hSetting parent hParent).rooted_of_grows hSetting hParent hGrows
  obtain ⟨model, hKept, hModel, _, hType⟩ := h.model_of_request hStart hRequest
  obtain ⟨name, parser, hParser, hReads⟩ := (h.stage.valid hStart).read request hRequest
  obtain ⟨within, hSource⟩ :=
    hSound.history.source_eq hSetting hRequest hRooted hFields hMerged hSame
  refine ⟨model, hModel, hType, parser, ?_, ?_, ⟨within, ?_⟩, hReads.types⟩
  · exact List.mem_filterMap.mpr ⟨_, OrderedMap.mem_values_of_get? hParser, rfl⟩
  · have hReturn := hReads.returnType
    rw [hKept] at hReturn
    exact (Option.some.inj hReturn).symm
  · rw [hReads.source, hSource, hDeclares.fieldName, hDeclares.responseName]

/-- The request was made for a field, and in a uniform run it is at the type of that field. -/
theorem askedIn_of_requestedFor (hStart : Startable task names operations)
    (h : Finished task names operations taken session)
    (hFor : RequestedFor task taken session interface field request) :
    (∃ parent ∈ taken, parent.AskedIn task.toSetting request) ∧
      (GrowUniformly task.toSetting taken →
        request.declared.name = field.annotation.innermost.name) := by
  have hSetting := hStart.setting
  have hSound := h.sound hStart
  obtain ⟨tree, path, fields, merged, ⟨parent, hParent, hGrows⟩, _, hFields, hMerged, hDeclares,
    hRequest, hSame⟩ := hFor
  have hRooted := (hSound.known hSetting parent hParent).rooted_of_grows hSetting hParent hGrows
  constructor
  · obtain ⟨asking, hAsking, _, hAsked⟩ :=
      hSound.history.askedIn hSetting hRequest hRooted hFields hMerged hSame
    exact ⟨asking, hAsking, hAsked⟩
  · intro hUniform
    rw [hDeclares.typed]
    exact hSound.history.declared_name_eq hSetting hUniform hRequest hRooted
      (hUniform parent hParent tree hGrows) hFields hMerged hSame

end Finished

/-- A composite field is modelled at its own type exactly if that is the type of the request for
the nodes of the field, which may have been made where the field was of another type. In a uniform
run it is the field's own. -/
theorem composite_field_modelled_iff (hStart : Startable task names operations) {graph : Graph}
    (hCompile : (compileOperations task names operations).1 = .ok graph)
    {interface : InterfaceModel} (hInterface : interface ∈ graph.interfaces) {field : FieldModel}
    (hField : field ∈ interface.fields) {model : String}
    (hModel : field.target = .composite model) :
    ∃ taken session request, Finished task names operations taken session ∧
      session.graph = graph ∧ RequestedFor task taken session interface field request ∧
      (∃ parent ∈ taken, parent.AskedIn task.toSetting request) ∧
      (∀ type, graph.ModelsField task.schema field model type ↔ type = request.declared.name) ∧
      (GrowUniformly task.toSetting taken →
        graph.ModelsField task.schema field model field.annotation.innermost.name) := by
  obtain ⟨taken, session, hFinished, rfl⟩ := exists_finished_of_compile hStart hCompile
  obtain ⟨request, hFor, rfl⟩ :=
    hFinished.exists_requestedFor hStart hInterface hField hModel
  have hModelled := hFinished.modelsField hStart hFor
  obtain ⟨hAsked, hSame⟩ := hFinished.askedIn_of_requestedFor hStart hFor
  refine ⟨taken, session, request, hFinished, rfl, hFor, hAsked, fun type => ⟨?_, ?_⟩,
    fun hUniform => ?_⟩
  · rintro ⟨other, hOther, rfl, _⟩
    obtain ⟨found, hFound, hType, _⟩ := hModelled
    rw [hOther] at hFound
    cases hFound
    exact hType
  · rintro rfl
    exact hModelled
  · rw [← hSame hUniform]
    exact hModelled

/-- Nodes have nodes as friends, and users have users. -/
def friendTypes : List SchemaItem :=
  [.define ⟨⟨1, 1⟩, none, "HasMe", .interface [] [⟨⟨1, 9⟩, none, "me", .named "Node"⟩]⟩,
    .define ⟨⟨2, 1⟩, none, "Query", .object ["HasMe"] [⟨⟨2, 9⟩, none, "me", .named "User"⟩]⟩,
    .define ⟨⟨3, 1⟩, none, "Node", .interface []
      [⟨⟨3, 9⟩, none, "friend", .named "Node"⟩, ⟨⟨3, 19⟩, none, "id", .named "ID"⟩]⟩,
    .define ⟨⟨4, 1⟩, none, "User", .object ["Node"]
      [⟨⟨4, 9⟩, none, "friend", .named "User"⟩, ⟨⟨4, 19⟩, none, "id", .named "ID"⟩]⟩,
    .define ⟨⟨5, 1⟩, none, "Bot", .object ["Node"]
      [⟨⟨5, 9⟩, none, "friend", .named "Node"⟩, ⟨⟨5, 19⟩, none, "id", .named "ID"⟩]⟩]

/-- A fragment for the friend of `me`, with its nodes on one line. -/
def friendFragment (name : String) (line : Nat) : ExecutableItem :=
  .fragment ⟨name, "HasMe", ⟨line, 1⟩, [.field ⟨line, 3⟩ none "me"
    [.field ⟨line, 5⟩ none "friend" [.field ⟨line, 7⟩ none "id" []]]]⟩

/-- Two queries with the same fragments: `me` is a node for the first of them and a user for the
second. -/
def friendTask : Task :=
  (Task.ofItems? friendTypes
    [.operation ⟨.query, some "First", ⟨1, 1⟩, [], [.spread ⟨1, 3⟩ "Both"]⟩,
      .operation ⟨.query, some "Second", ⟨2, 1⟩, [],
        [.field ⟨2, 3⟩ none "me" [.field ⟨2, 5⟩ none "id" []], .spread ⟨2, 7⟩ "One",
          .spread ⟨2, 9⟩ "Other"]⟩,
      .fragment ⟨"Both", "HasMe", ⟨3, 1⟩, [.spread ⟨3, 3⟩ "One", .spread ⟨3, 5⟩ "Other"]⟩,
      friendFragment "One" 4, friendFragment "Other" 5]).get (by decide +kernel)

/-- The friend of a user is modelled as a node, since the first query has asked for the same
nodes. -/
theorem friend_of_user_modelled_at_node :
    ∃ graph interface field model,
      (compileOperations friendTask (.initial 9) friendTask.document.operations).1 = .ok graph ∧
      interface ∈ graph.interfaces ∧ field ∈ interface.fields ∧
      field.target = .composite model ∧ field.annotation.innermost.name = "User" ∧
      graph.ModelsField friendTask.schema field model "Node" ∧
      ¬ graph.ModelsField friendTask.schema field model "User" := by
  have hRun : (compileOperations friendTask (.initial 9)
      friendTask.document.operations).1.toOption.bind (fun graph =>
        (graph.interfaces.find? (·.name == "IMe3")).bind fun interface =>
          (interface.fields.find? (·.responseName == "friend")).map fun field =>
            (field.target, field.annotation.innermost.name,
              (graph.interface? "IFriend2").map InterfaceModel.type)) =
      some (.composite "IFriend2", "User", some "Node") := by
    decide +kernel
  have hStart : Startable friendTask (.initial 9) friendTask.document.operations :=
    .ofItems (Option.some_get _).symm (by decide +kernel) 9
  obtain ⟨graph, hGraph, hFound⟩ := Option.bind_eq_some_iff.mp hRun
  obtain ⟨interface, hInterface, hFound⟩ := Option.bind_eq_some_iff.mp hFound
  obtain ⟨field, hField, hComputed⟩ := Option.map_eq_some_iff.mp hFound
  obtain ⟨hTarget, hComputed⟩ := Prod.mk.inj hComputed
  obtain ⟨hTypeName, hType⟩ := Prod.mk.inj hComputed
  have hCompile := (Outcome.toOption_eq_some_iff _ _).mp hGraph
  have hMem := List.mem_of_find?_eq_some hInterface
  have hMemField := List.mem_of_find?_eq_some hField
  obtain ⟨_, _, request, _, _, _, _, hIff, _⟩ :=
    composite_field_modelled_iff hStart hCompile hMem hMemField hTarget
  have hNode : request.declared.name = "Node" := by
    obtain ⟨found, hModel, hSame, _⟩ := (hIff _).mpr rfl
    rw [hModel] at hType
    exact hSame.symm.trans (Option.some.inj hType)
  rw [hNode] at hIff
  exact ⟨graph, interface, field, "IFriend2", hCompile, hMem, hMemField, hTarget, hTypeName,
    (hIff _).mpr rfl, fun hUser => absurd ((hIff _).mp hUser) (by decide)⟩

end ResponseModels
