import ResponseModels.Proofs.Document.Typing
import ResponseModels.Proofs.Run.Failures

/-! Unknown fields of well-typed documents. What is selected beneath the nodes of one response key is
collected on the type of the first of them. Where a later node selects a narrower field, or one of
another type altogether, it is displaced, and fields beneath it that exist on its own type may be
rejected. Nowhere else is a field of a well-typed document rejected as unknown. -/
namespace ResponseModels

open GraphQL

variable {task : Task} {names : Names} {operations : List Operation} {setting : Setting}
  {taken rest requests parents others : List Request} {session next : Session} {request : Request}
  {type : SchemaType} {selection : Selection} {selections : List Selection}
  {node : FieldNode} {path : ModelPath} {cause : ModelError} {tree : FragmentTree}
  {fields : List MergedField} {merged : MergedField}

/-- A tree of the request merges the node under a field that the first node of its response key
selects, and the type of that field is not as narrow as that of the field which the node itself
selects. -/
def Request.Displaces (setting : Setting) (request : Request) (node : FieldNode) : Prop :=
  ∃ tree path fields, request.Spans setting tree ∧ setting.treeFields path tree = .ok fields ∧
    ∃ merged ∈ fields, ∃ type field, setting.Merges tree ⟨type, node⟩ ∧
      node.responseKey = merged.responseKey ∧ type.selectable? node.name = some field ∧
      ¬ setting.schema.Narrows merged.field.annotation.innermost.name
        field.annotation.innermost.name

/-- The selection stands beneath a node that one of the requests displaces: each node that it leads
to is nested in that node, at any depth. -/
def Beneath (setting : Setting) (parents : List Request) (selection : Selection) : Prop :=
  ∃ outer, (∃ parent ∈ parents, parent.Displaces setting outer) ∧
    ∀ node, setting.document.Leads [selection] node →
      Relation.TransGen setting.document.NestedIn node outer

/-- Each of the selections is allowed on the type, or it stands beneath a displaced node. -/
def Fits (setting : Setting) (parents : List Request) (type : SchemaType)
    (selections : List Selection) : Prop :=
  ∀ selection ∈ selections,
    setting.schema.allows type selection = true ∨ Beneath setting parents selection

theorem Document.Leads.of_mem {document : Document} (h : document.Leads [selection] node)
    (hMem : selection ∈ selections) : document.Leads selections node := by
  cases h with
  | field hOnly => exact .field (List.mem_singleton.mp hOnly ▸ hMem)
  | inline hOnly hInner => exact .inline (List.mem_singleton.mp hOnly ▸ hMem) hInner
  | spread hOnly hFragment hInner =>
      exact .spread (List.mem_singleton.mp hOnly ▸ hMem) hFragment hInner

namespace Beneath

theorem mono (hMore : parents ⊆ others) (h : Beneath setting parents selection) :
    Beneath setting others selection := by
  obtain ⟨outer, ⟨parent, hParent, hDisplaces⟩, hLeads⟩ := h
  exact ⟨outer, ⟨parent, hMore hParent, hDisplaces⟩, hLeads⟩

theorem of_displaces {parent : Request} (hParent : parent ∈ parents)
    (hDisplaces : parent.Displaces setting node) (hMem : selection ∈ node.selections) :
    Beneath setting parents selection := by
  refine ⟨node, ⟨parent, hParent, hDisplaces⟩, fun inner hLeads => ?_⟩
  exact .single (hLeads.of_mem hMem)

/-- With a selection all selections that lead to the same nodes stand beneath a displaced node. -/
theorem of_leads {inner : Selection} (h : Beneath setting parents selection)
    (hInner : ∀ node, setting.document.Leads [inner] node →
      setting.document.Leads [selection] node) : Beneath setting parents inner := by
  obtain ⟨outer, hOuter, hNested⟩ := h
  exact ⟨outer, hOuter, fun node hLeads => hNested node (hInner node hLeads)⟩

/-- What is nested in a node beneath a displaced one is beneath it too. -/
theorem nested (h : Beneath setting parents node.selection) (hMem : selection ∈ node.selections) :
    Beneath setting parents selection := by
  obtain ⟨outer, hOuter, hNested⟩ := h
  refine ⟨outer, hOuter, fun inner hLeads => .head (hLeads.of_mem hMem) ?_⟩
  exact hNested node (.field (List.mem_singleton.mpr rfl))

end Beneath

namespace Fits

theorem mono (hMore : parents ⊆ others) (h : Fits setting parents type selections) :
    Fits setting others type selections :=
  fun selection hMem => (h selection hMem).imp_right (Beneath.mono hMore)

theorem of_allowsAll (h : setting.schema.allowsAll type selections = true) :
    Fits setting parents type selections :=
  fun selection hMem => .inl (Schema.allowsAll_iff.mp h selection hMem)

/-- The selections of a fragment fit its condition. Only without a condition of its own can the
fragment stand on a type on which it is not allowed. -/
theorem opens (hTyped : setting.WellTyped) (h : Fits setting parents type selections)
    (hMem : selection ∈ selections) (hNode : selection ∈ setting.document.nodes) {branch : Branch}
    (hOpens : setting.Opens type selection branch) :
    Fits setting parents branch.condition branch.selections := by
  cases hOpens with
  | spread hFragment hCondition =>
      obtain ⟨condition, hFound, hAll⟩ :=
        hTyped.fragments _ (Document.mem_values_of_fragment? hFragment)
      rw [Option.mem_def, hCondition] at hFound
      cases hFound
      exact .of_allowsAll hAll
  | inlineOn hCondition =>
      obtain ⟨_, hAllows⟩ := hTyped.allows_node hNode
      obtain ⟨condition, hFound, hAll⟩ := Schema.allows_inlineOn hAllows
      rw [hCondition] at hFound
      cases hFound
      exact .of_allowsAll hAll
  | inline =>
      rcases h _ hMem with hAllows | hBeneath
      · rw [Schema.allows] at hAllows
        exact .of_allowsAll hAllows
      · intro inner hInner
        refine .inr (hBeneath.of_leads fun node hLeads => ?_)
        exact .inline (List.mem_singleton.mpr rfl) (hLeads.of_mem hInner)

/-- A node that is reached at a type is allowed on a condition that applies to the type, or it
stands beneath a displaced node. -/
theorem of_reaches (hSetting : setting.Admissible) (hTyped : setting.WellTyped)
    {scope : SchemaType} (h : Fits setting parents scope selections)
    (hScope : setting.Knows scope) (hApplies : setting.schema.applies scope type = true)
    (hNodes : selections ⊆ setting.document.nodes) {occurrence : Occurrence}
    (hReaches : setting.Reaches type scope selections occurrence) :
    setting.Knows occurrence.type ∧ setting.schema.applies occurrence.type type = true ∧
      (setting.schema.allows occurrence.type occurrence.node.selection = true ∨
        Beneath setting parents occurrence.node.selection) := by
  induction hReaches with
  | field hMem => exact ⟨hScope, hApplies, h _ hMem⟩
  | branch hMem hOpens hBranch _ ih =>
      exact ih (h.opens hTyped hMem (hNodes hMem) hOpens) (hOpens.knows hSetting hScope) hBranch
        (hOpens.subset_nodes (hNodes hMem))

end Fits

/-- Where the requests fit, so do the fragments in them. -/
theorem Head.fits (hTyped : setting.WellTyped)
    (hKnown : ∀ request ∈ requests, request.Known setting requests)
    (hFits : ∀ request ∈ requests, Fits setting parents request.declared request.selections)
    {branch : Branch} (h : Head setting requests branch) :
    Fits setting parents branch.condition branch.selections := by
  induction h with
  | requested hRequest => exact hFits _ hRequest
  | opened hOuter hMem hOpens ih =>
      exact ih.opens hTyped hMem (hOuter.subset_nodes hKnown hMem) hOpens

theorem Rooted.fits_of_holds (hTyped : setting.WellTyped)
    (hKnown : ∀ request ∈ requests, request.Known setting requests)
    (hFits : ∀ request ∈ requests, Fits setting parents request.declared request.selections)
    (h : Rooted setting requests tree) {occurrence : Occurrence} (hHolds : tree.Holds occurrence) :
    setting.schema.allows occurrence.type occurrence.node.selection = true ∨
      Beneath setting parents occurrence.node.selection := by
  obtain ⟨subtree, hWithin, hType, hMem⟩ := hHolds
  rw [hType]
  exact (h subtree hWithin).fits hTyped hKnown hFits _ hMem

/-- A node is not rejected where it is allowed. -/
theorem Setting.Rejects.not_allows {occurrence : Occurrence}
    (h : setting.Rejects path cause occurrence) :
    ¬ setting.schema.allows occurrence.type occurrence.node.selection = true := by
  intro hAllows
  obtain ⟨field, hField, _⟩ := Schema.allows_field hAllows
  have hMissing : occurrence.type.selectable? occurrence.node.name = none := h.missing
  rw [hField] at hMissing
  cases hMissing

/-- The cause names a node of the document that the type which it names does not have, and the node
stands beneath a displaced one. -/
def Misplaces (setting : Setting) (parents : List Request) (cause : ModelError) : Prop :=
  ∃ type path node, setting.Knows type ∧ setting.Rejects path cause ⟨type, node⟩ ∧
    Beneath setting parents node.selection

namespace Fits

/-- Selections that fit are rejected only beneath a displaced node, at every type that they are
seen at. -/
theorem misplaces (hSetting : setting.Admissible) (hCovariant : setting.schema.Covariant)
    (hTyped : setting.WellTyped) {scope : SchemaType}
    (h : Fits setting parents scope selections) (hScope : setting.Knows scope)
    (hType : setting.Knows type) (hApplies : setting.schema.applies scope type = true)
    (hNodes : selections ⊆ setting.document.nodes) (hUnknown : cause.isUnknownField = true)
    (hError : setting.collectIn scope type selections path = .error cause) :
    Misplaces setting parents cause := by
  obtain ⟨condition, node, hReaches, hRejects⟩ :=
    Setting.rejectsIn_of_collectIn hUnknown hError
  obtain ⟨hCondition, hOn, hAllows | hBeneath⟩ :=
    h.of_reaches hSetting hTyped hScope hApplies hNodes hReaches
  · have hOwn := hCovariant.allows hSetting.schema hCondition hType hOn _ hAllows
    exact absurd hOwn hRejects.not_allows
  · exact ⟨type, path, node, hType, hRejects, hBeneath⟩

/-- What is selected beneath a merged field fits the type of the field, as far as no node of the
field is displaced. -/
theorem beneath (hSetting : setting.Admissible) (hCovariant : setting.schema.Covariant)
    (hTyped : setting.WellTyped) (hKnown : ∀ request ∈ requests, request.Known setting requests)
    (hFits : ∀ request ∈ requests, Fits setting parents request.declared request.selections)
    {parent : Request} (hParent : parent ∈ parents) (hSpans : parent.Spans setting tree)
    (hRooted : Rooted setting requests tree)
    (hFields : setting.treeFields path tree = .ok fields) (hMerged : merged ∈ fields)
    (hType : setting.schema.type? merged.field.annotation.innermost.name = some type) :
    Fits setting parents type merged.nested := by
  intro selection hSelection
  obtain ⟨node, hNode, hMem⟩ := List.mem_flatMap.mp hSelection
  obtain ⟨occurrences, hMerge, hOccurrences⟩ := Setting.merged_of_treeFields hFields
  obtain ⟨occurrence, hOccurrence, hKey, rfl⟩ :=
    ((hMerge.each merged hMerged).mem_nodes_iff node).mp hNode
  have hMerges := (hOccurrences occurrence).mp hOccurrence
  rcases hRooted.fits_of_holds hTyped hKnown hFits hMerges.holds with hAllows | hBeneath
  · obtain ⟨field, hField, hInner⟩ := Schema.allows_field hAllows
    by_cases hNarrows : setting.schema.Narrows merged.field.annotation.innermost.name
        field.annotation.innermost.name
    · -- The first node selects a field as narrow as this one, so nothing beneath it is lost.
      left
      refine Schema.allowsAll_iff.mp ?_ selection hMem
      rcases hNarrows with hSame | ⟨narrow, hNarrow, wide, hWide, hApplies⟩
      · exact hInner type (hSame ▸ hType)
      · rw [Option.mem_def, hType] at hNarrow
        cases hNarrow
        exact hCovariant.allowsAll hSetting.schema (hSetting.knows_of_type? hWide)
          (hSetting.knows_of_type? hType) hApplies _ (hInner wide hWide)
    · right
      refine Beneath.of_displaces hParent ?_ hMem
      exact ⟨tree, path, fields, hSpans, hFields, merged, hMerged, occurrence.type, field, hMerges,
        hKey, hField, hNarrows⟩
  · exact .inr (hBeneath.nested hMem)

end Fits

/-- An operation fits its root type. -/
theorem Setting.WellTyped.fits_root (hSetting : setting.Admissible) (hTyped : setting.WellTyped)
    {operation : Operation} (hOperation : operation ∈ setting.document.operations)
    {root : FieldedType} (hRoot : setting.schema.root? operation.kind = some root)
    (hType : setting.schema.type? root.name = some type) :
    Fits setting parents type operation.selections := by
  obtain ⟨found, hFound, hAll⟩ := hTyped.operations operation hOperation
  rw [Option.mem_def, hRoot] at hFound
  cases hFound
  have hObject : setting.schema.type? root.name = some (.object root) := by
    obtain ⟨name, _, hName⟩ := Option.bind_eq_some_iff.mp hRoot
    exact (hSetting.schema.wellFormed.type?_of_object? hName).2
  rw [hType] at hObject
  rw [Option.some.inj hObject]
  exact .of_allowsAll hAll

namespace Stage

/-- At every stage each request fits its type, as far as those taken up displace no nodes. -/
theorem fits (hStart : Startable task names operations) (hCovariant : task.schema.Covariant)
    (hTyped : task.toSetting.WellTyped) (h : Stage task names operations taken rest session) :
    ∀ request ∈ taken ++ (rest ++ session.pending),
      Fits task.toSetting taken request.declared request.selections := by
  have hSetting := hStart.setting
  induction h with
  | start hYields =>
      intro request hRequest
      obtain ⟨asked, hPending, hAsked⟩ := Build.pending_requestOperations hYields
      have hMem : request ∈ asked := by simpa [hPending, Session.initial] using hRequest
      obtain ⟨operation, hOperation, root, declared, hRoot, hType, hFulfilled⟩ :=
        Outcome.exists_left hAsked hMem
      rw [hFulfilled.selections, hFulfilled.declared]
      exact hTyped.fits_root hSetting (hStart.operations.subset hOperation) hRoot hType
  | round _ ih => simpa using ih
  | @step taken rest request session next hStage hYields ih =>
      have hMore : taken ⊆ taken ++ [request] := List.subset_append_left _ _
      have hFits : ∀ other ∈ taken ++ (request :: rest ++ session.pending),
          Fits task.toSetting (taken ++ [request]) other.declared other.selections :=
        fun other hOther => (ih other hOther).mono hMore
      have hValid := hStage.valid hStart
      have hKnown := hValid.sound.known hSetting
      obtain ⟨_, more, hPending, hAsked⟩ := hValid.step hSetting hYields
      intro other hOther
      by_cases hNew : other ∈ more
      · obtain ⟨tree, path, fields, hGrows, hFields, merged, hMerged, hAsks⟩ := hAsked other hNew
        have hMem : request ∈ taken ++ (request :: rest ++ session.pending) := by simp
        have hRooted := (hKnown request hMem).rooted_of_grows hSetting hMem hGrows
        rw [hAsks.selections]
        exact .beneath hSetting hCovariant hTyped hKnown hFits (by simp) (.inr hGrows) hRooted
          hFields hMerged hAsks.declared
      · rw [hPending] at hOther
        refine hFits other ?_
        simp only [List.mem_append, List.mem_cons] at hOther ⊢
        tauto

end Stage

/-- A request that fits fails only over a node beneath a displaced one. -/
theorem Request.Fails.misplaces (hSetting : task.toSetting.Admissible)
    (hCovariant : task.schema.Covariant) (hTyped : task.toSetting.WellTyped)
    (hKnown : ∀ request ∈ requests, request.Known task.toSetting requests)
    (hFits : ∀ request ∈ requests,
      Fits task.toSetting parents request.declared request.selections)
    (hRequest : request ∈ requests) (hParent : request ∈ parents)
    (hUnknown : cause.isUnknownField = true) (h : request.Fails task cause) :
    Misplaces task.toSetting parents cause := by
  have hOwn := hKnown request hRequest
  cases h with
  | @case object hObject hError =>
      have hForm := hSetting.schema.wellFormed
      have hKnows : task.toSetting.Knows (.object object) := hForm.type?_of_possible hObject
      refine (hFits request hRequest).misplaces hSetting hCovariant hTyped hOwn.declared hKnows ?_
        hOwn.nodes hUnknown hError
      exact hForm.applies_possible hOwn.declared hOwn.declared hObject (Schema.applies_self _)
  | tree hSpans hLacks =>
      have hRooted := hOwn.rooted_of_spans hSetting hRequest hSpans
      cases hLacks with
      | fields hError =>
          obtain ⟨occurrence, hHolds, hRejects⟩ := Setting.rejects_of_treeFields hError
          rcases hRooted.fits_of_holds hTyped hKnown hFits hHolds with hAllows | hBeneath
          · exact absurd hAllows hRejects.not_allows
          · obtain ⟨subtree, hWithin, hType, _⟩ := hHolds
            refine ⟨_, _, _, ?_, hRejects, hBeneath⟩
            rw [hType]
            exact (hRooted subtree hWithin).knows hSetting hKnown
      | beneath hFields hMerged hDeclared hError =>
          have hInner := Fits.beneath hSetting hCovariant hTyped hKnown hFits hParent hSpans
            hRooted hFields hMerged hDeclared
          have hKnows := hSetting.knows_of_type? hDeclared
          refine hInner.misplaces hSetting hCovariant hTyped hKnows hKnows (Schema.applies_self _)
            ?_ hUnknown hError
          intro selection hSelection
          obtain ⟨node, hNode, hMem⟩ := List.mem_flatMap.mp hSelection
          have hInside := (hRooted.of_merged hKnown hFields hMerged).1 node hNode
          exact Document.mem_nodes_of_body (Document.body_of_node hInside) hMem

/-- A field of a well-typed document is rejected as unknown only beneath a displaced node, so in a
run that displaces no node none is. The type that is named does not have the field. -/
theorem unknown_field_beneath_displaced (hStart : Startable task names operations)
    (hCovariant : task.schema.Covariant) (hTyped : task.toSetting.WellTyped)
    {field type : String} {location : Location} {path : ModelPath}
    (hCompile : (compileOperations task names operations).1 =
      .error (.unknownField field type location path)) :
    ∃ taken request rest session node outer found,
      Stage task names operations taken (request :: rest) session ∧
      node.name = field ∧ task.document.locate node.position = location ∧
      task.schema.type? type = some found ∧ found.selectable? field = none ∧
      Relation.TransGen task.document.NestedIn node outer ∧
      ∃ parent ∈ taken ++ [request], parent.Displaces task.toSetting outer := by
  have hSetting := hStart.setting
  rcases fails_compileOperations hCompile with
    hOperations | ⟨taken, request, rest, session, hStage, hProcess⟩
  · -- Before the first request is taken up nothing is displaced.
    obtain ⟨operation, hOperation, root, declared, hRoot, hType, _, hError⟩ :=
      Build.fails_requestOperations rfl hOperations
    have hMem := hStart.operations.subset hOperation
    have hFits : Fits task.toSetting [] declared operation.selections :=
      hTyped.fits_root hSetting hMem hRoot hType
    have hKnows := hSetting.knows_of_type? hType
    obtain ⟨_, _, _, _, _, _, ⟨parent, hParent, _⟩, _⟩ := hFits.misplaces hSetting hCovariant hTyped
      hKnows hKnows (Schema.applies_self _) (fun _ hInner =>
        Document.mem_nodes_of_body (Document.body_of_operation hMem) hInner) rfl hError
    cases hParent
  · have hFits : ∀ other ∈ taken ++ (request :: rest ++ session.pending),
        Fits task.toSetting (taken ++ [request]) other.declared other.selections :=
      fun other hOther => (hStage.fits hStart hCovariant hTyped other hOther).mono
        (List.subset_append_left _ _)
    have hKnown := (hStage.valid hStart).sound.known hSetting
    obtain ⟨found, _, node, hKnows, hRejects, outer, hOuter, hNested⟩ :=
      (Build.fails_process hSetting rfl hProcess).misplaces hSetting hCovariant hTyped hKnown hFits
        (by simp) (by simp) rfl
    have hMissing : found.selectable? node.name = none := hRejects.missing
    have hNamed := hRejects.named
    injection hNamed with hField hType hLocation _
    subst hField hType hLocation
    exact ⟨taken, request, rest, session, node, outer, found, hStage, rfl, rfl, hKnows, hMissing,
      hNested node (.field (List.mem_singleton.mpr rfl)), hOuter⟩

/-- Users are nodes whose friends are users. -/
def userTypes : List SchemaItem :=
  [.define ⟨⟨1, 1⟩, none, "Query", .object [] [⟨⟨1, 9⟩, none, "me", .named "User"⟩]⟩,
    .define ⟨⟨2, 1⟩, none, "Node", .interface []
      [⟨⟨2, 9⟩, none, "id", .named "ID"⟩, ⟨⟨2, 19⟩, none, "friend", .named "Node"⟩]⟩,
    .define ⟨⟨3, 1⟩, none, "User", .object ["Node"]
      [⟨⟨3, 9⟩, none, "id", .named "ID"⟩, ⟨⟨3, 19⟩, none, "name", .named "String"⟩,
        ⟨⟨3, 29⟩, none, "friend", .named "User"⟩]⟩]

/-- A query for `me` with two fragments, one on nodes and one on users. -/
def userTask : Task :=
  (Task.ofItems? userTypes
    [.operation ⟨.query, some "Q", ⟨1, 1⟩, [], [.field ⟨1, 3⟩ none "me"
        [.spread ⟨1, 5⟩ "OnNode", .spread ⟨1, 7⟩ "OnUser"]]⟩,
      .fragment ⟨"OnNode", "Node", ⟨2, 1⟩, [.field ⟨2, 3⟩ none "friend"
        [.field ⟨2, 5⟩ none "id" []]]⟩,
      .fragment ⟨"OnUser", "User", ⟨3, 1⟩, [.field ⟨3, 3⟩ none "friend"
        [.field ⟨3, 5⟩ none "name" []]]⟩]).get (by decide +kernel)

/-- The friend of a user is looked at as a node, since the fragment on nodes comes first, and nodes
have no name. -/
theorem name_of_friend_unknown_on_node :
    userTask.schema.Covariant ∧ userTask.toSetting.WellTyped ∧
      (compileOperations userTask (.initial 9) userTask.document.operations).1 =
        .error (.unknownField "name" "Node" (userTask.document.locate ⟨3, 5⟩)
          ((((ModelPath.root "Q").child "me").child "friend").child "name")) ∧
      ∃ taken request rest session node outer found,
        Stage userTask (.initial 9) userTask.document.operations taken (request :: rest) session ∧
        node.name = "name" ∧
        userTask.document.locate node.position = userTask.document.locate ⟨3, 5⟩ ∧
        userTask.schema.type? "Node" = some found ∧ found.selectable? "name" = none ∧
        Relation.TransGen userTask.document.NestedIn node outer ∧
        ∃ parent ∈ taken ++ [request], parent.Displaces userTask.toSetting outer := by
  have hCovariant : userTask.schema.Covariant := by decide +kernel
  have hTyped : userTask.toSetting.WellTyped := by decide +kernel
  have hRun : (compileOperations userTask (.initial 9) userTask.document.operations).1 =
      .error (.unknownField "name" "Node" (userTask.document.locate ⟨3, 5⟩)
        ((((ModelPath.root "Q").child "me").child "friend").child "name")) := by decide +kernel
  have hStart : Startable userTask (.initial 9) userTask.document.operations :=
    .ofItems (Option.some_get _).symm (by decide +kernel) 9
  exact ⟨hCovariant, hTyped, hRun, unknown_field_beneath_displaced hStart hCovariant hTyped hRun⟩

end ResponseModels
