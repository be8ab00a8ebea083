import ResponseModels.Proofs.Run.Modelling
import ResponseModels.Proofs.Selection.Descent

/-! How far a run can go, whatever the schema. What a request brings in lies one level of fields
deeper than the request, except for trees that it takes over from requests before it; these have
been taken up earlier, so their interfaces are there and nothing is asked for in them again. As no
level of fields is deeper than there are selections that operations lead to, a run that does not
fail comes to a session in which nothing waits. -/
namespace ResponseModels

open GraphQL

variable {task : Task} {setting : Setting} {session before after : Session}
  {queue others : List Request} {request : Request} {tree subtree : FragmentTree}
  {path : ModelPath} {depth : Nat}

/-- The selections of the request stand beneath the given number of field nodes nested in each
other, and so does every field node that they lead to. -/
structure Request.Deep (document : Document) (depth : Nat) (request : Request) : Prop where
  beneath : ∃ chain, chain.length = depth ∧ document.Nested chain
  leads : ∀ node, document.Leads request.selections node →
    ∃ chain, chain.length = depth ∧ document.Nested (node :: chain)

theorem Request.Deep.le_reachedCount (hDocument : setting.document.Accepted)
    (h : request.Deep setting.document depth) : depth ≤ setting.document.reachedCount := by
  obtain ⟨chain, rfl, hNested⟩ := h.beneath
  exact hNested.length_le hDocument

/-- Selections beneath merged field nodes lie one level deeper than these. -/
theorem Request.Deep.of_nodes (nodes : List FieldNode) (hSome : nodes ≠ [])
    (hNodes : ∀ node ∈ nodes,
      ∃ chain, chain.length = depth ∧ setting.document.Nested (node :: chain))
    (hSelections : request.selections = nodes.flatMap FieldNode.selections) :
    request.Deep setting.document (depth + 1) := by
  constructor
  · obtain ⟨first, hFirst⟩ := List.exists_mem_of_ne_nil nodes hSome
    obtain ⟨chain, rfl, hNested⟩ := hNodes first hFirst
    exact ⟨first :: chain, rfl, hNested⟩
  · intro node hLeads
    rw [hSelections] at hLeads
    obtain ⟨outer, hOuter, hNestedIn⟩ := Document.leads_flatMap hLeads
    obtain ⟨chain, rfl, hNested⟩ := hNodes outer hOuter
    exact ⟨outer :: chain, rfl, .inner hNested hNestedIn⟩

/-- The tree has its interface. -/
def Session.HasInterface (session : Session) (tree : FragmentTree) : Prop :=
  ∃ model, session.interface? tree.key = some model

/-- What can be said of a request from the start. A tree in its return tree leads nowhere that the
request does not lead, unless it is one of those that are spared. -/
structure Request.Grounded (setting : Setting) (spared : FragmentTree → Prop)
    (request : Request) : Prop where
  nodes : request.selections ⊆ setting.document.nodes
  honest : setting.Honest request.returnTree
  within : ∀ tree : FragmentTree, tree.Within request.returnTree →
    (∀ node, setting.document.Leads tree.selections node →
      setting.document.Leads request.selections node) ∨ spared tree

theorem Request.Grounded.mono {spared more : FragmentTree → Prop}
    (hMore : ∀ tree, spared tree → more tree) (h : request.Grounded setting spared) :
    request.Grounded setting more :=
  ⟨h.nodes, h.honest, fun tree hWithin => (h.within tree hWithin).imp_right (hMore tree)⟩

/-- Requests in a queue. The trees of those further ahead are spared. -/
def Lined (setting : Setting) : (FragmentTree → Prop) → List Request → Prop
  | _, [] => True
  | spared, request :: rest =>
    request.Grounded setting spared ∧
      Lined setting (fun tree => spared tree ∨ tree.Within request.returnTree) rest

theorem Lined.mono {spared more : FragmentTree → Prop} (hMore : ∀ tree, spared tree → more tree)
    (h : Lined setting spared queue) : Lined setting more queue := by
  induction queue generalizing spared more with
  | nil => trivial
  | cons request rest ih =>
      exact ⟨h.1.mono hMore, ih (fun tree => Or.imp_left (hMore tree)) h.2⟩

/-- One more request at the end of the queue. -/
theorem Lined.snoc {spared : FragmentTree → Prop} (h : Lined setting spared queue)
    (hRequest : request.Grounded setting fun tree =>
      spared tree ∨ ∃ earlier ∈ queue, tree.Within earlier.returnTree) :
    Lined setting spared (queue ++ [request]) := by
  induction queue generalizing spared with
  | nil => exact ⟨hRequest.mono (by simp), trivial⟩
  | cons first rest ih =>
      refine ⟨h.1, ih h.2 (hRequest.mono ?_)⟩
      rintro tree (hSpared | ⟨earlier, hEarlier, hWithin⟩)
      · exact .inl (.inl hSpared)
      · rcases List.mem_cons.mp hEarlier with rfl | hEarlier
        · exact .inl (.inr hWithin)
        · exact .inr ⟨earlier, hEarlier, hWithin⟩

/-- A session with requests that still wait, the given ones before those in its own queue. -/
structure Underway (setting : Setting) (others : List Request) (session : Session) : Prop where
  /-- A tree has its interface only when its children have theirs. -/
  closed : ∀ tree, session.HasInterface tree →
    ∀ child ∈ tree.children, session.HasInterface child
  /-- Return trees that were noted belong to requests that wait, or have their interfaces. -/
  returned : ∀ entry ∈ session.returnTrees, setting.Honest entry.2 ∧
    (session.HasInterface entry.2 ∨
      ∃ earlier ∈ others ++ session.pending, entry.2 = earlier.returnTree)
  lined : Lined setting session.HasInterface (others ++ session.pending)

namespace Underway

theorem initial (names : Names) : Underway setting [] (.initial names) where
  closed := by
    rintro tree ⟨model, hModel⟩
    cases hModel
  returned := by
    intro entry hEntry
    cases hEntry
  lined := trivial

/-- With a tree all trees in it have their interfaces. -/
theorem hasInterface_within (h : Underway setting others session)
    (hTree : session.HasInterface tree) (hWithin : subtree.Within tree) :
    session.HasInterface subtree := by
  induction hWithin with
  | self => exact hTree
  | inner hChild _ ih => exact ih (h.closed _ hTree _ hChild)

/-- Names and the graph play no part. -/
theorem transfer (h : Underway setting others before)
    (hInterfaces : after.interfaces = before.interfaces)
    (hReturnTrees : after.returnTrees = before.returnTrees)
    (hPending : after.pending = before.pending) : Underway setting others after := by
  have hSame : after.HasInterface = before.HasInterface := by
    funext tree
    rw [Session.HasInterface, Session.interface?, hInterfaces]
    rfl
  exact ⟨hSame ▸ h.closed, by rw [hReturnTrees, hPending, hSame]; exact h.returned,
    by rw [hPending, hSame]; exact h.lined⟩

/-- A request goes to the end of the queue. -/
theorem enqueue (h : Underway setting others session)
    (hRequest : request.Grounded setting fun tree => session.HasInterface tree ∨
      ∃ earlier ∈ others ++ session.pending, tree.Within earlier.returnTree) :
    Underway setting others (session.enqueue request) := by
  refine ⟨h.closed, ?_, ?_⟩
  · intro entry hEntry
    rcases List.mem_cons.mp hEntry with rfl | hOld
    · exact ⟨hRequest.honest, .inr ⟨request, by simp [Session.enqueue], rfl⟩⟩
    · obtain ⟨hHonest, hTree⟩ := h.returned entry hOld
      refine ⟨hHonest, hTree.imp_right ?_⟩
      rintro ⟨earlier, hEarlier, hSame⟩
      refine ⟨earlier, ?_, hSame⟩
      change earlier ∈ others ++ (session.pending ++ [request])
      rw [← List.append_assoc]
      exact List.mem_append_left _ hEarlier
  · change Lined setting session.HasInterface (others ++ (session.pending ++ [request]))
    rw [← List.append_assoc]
    exact h.lined.snoc hRequest

theorem hasInterface_addInterface {model : InterfaceModel} :
    (session.addInterface tree.key model).HasInterface subtree ↔
      subtree.key = tree.key ∨ session.HasInterface subtree := by
  unfold Session.HasInterface
  rw [Session.interface?_addInterface]
  by_cases hSame : subtree.key = tree.key <;> simp [hSame]

/-- A tree gets its interface after its children. -/
theorem addInterface (h : Underway setting others session)
    (hChildren : ∀ child ∈ tree.children, session.HasInterface child) (model : InterfaceModel) :
    Underway setting others (session.addInterface tree.key model) := by
  have hMore : ∀ other, session.HasInterface other →
      (session.addInterface tree.key model).HasInterface other :=
    fun other hOther => hasInterface_addInterface.mpr (.inr hOther)
  refine ⟨?_, ?_, h.lined.mono hMore⟩
  · intro other hOther child hChild
    rcases hasInterface_addInterface.mp hOther with hSame | hOld
    · -- Trees of one key have children of the same keys.
      have hKeys : child.key ∈ tree.children.map FragmentTree.key := by
        rw [other.key_eq, tree.key_eq] at hSame
        injection hSame with _ hKeys
        rw [← hKeys]
        exact List.mem_map_of_mem hChild
      obtain ⟨twin, hTwin, hKey⟩ := List.mem_map.mp hKeys
      obtain ⟨found, hFound⟩ := hChildren twin hTwin
      exact hMore child ⟨found, hKey ▸ hFound⟩
    · exact hMore child (h.closed other hOld child hChild)
  · intro entry hEntry
    obtain ⟨hHonest, hTree⟩ := h.returned entry hEntry
    exact ⟨hHonest, hTree.imp_left (hMore entry.2)⟩

/-- A request leaves the queue when its return tree has its interface. -/
theorem taken (h : Underway setting (request :: others) session)
    (hReturn : session.HasInterface request.returnTree) : Underway setting others session := by
  refine ⟨h.closed, ?_, ?_⟩
  · intro entry hEntry
    obtain ⟨hHonest, hTree⟩ := h.returned entry hEntry
    refine ⟨hHonest, ?_⟩
    rcases hTree with hHas | ⟨earlier, hEarlier, hSame⟩
    · exact .inl hHas
    · rcases List.mem_cons.mp hEarlier with rfl | hEarlier
      · exact .inl (hSame ▸ hReturn)
      · exact .inr ⟨earlier, hEarlier, hSame⟩
  · refine Lined.mono ?_ h.lined.2
    rintro tree (hHas | hWithin)
    · exact hHas
    · exact h.hasInterface_within hReturn hWithin

/-- A round begins: the requests that wait are set apart. -/
theorem round (h : Underway setting [] session) :
    Underway setting session.pending { session with pending := [] } := by
  have hQueue : session.pending ++ [] = [] ++ session.pending := List.append_nil _
  refine ⟨h.closed, ?_, ?_⟩
  · change ∀ entry ∈ session.returnTrees, setting.Honest entry.2 ∧
      (session.HasInterface entry.2 ∨
        ∃ earlier ∈ session.pending ++ [], entry.2 = earlier.returnTree)
    rw [hQueue]
    exact h.returned
  · change Lined setting session.HasInterface (session.pending ++ [])
    rw [hQueue]
    exact h.lined

end Underway

/-- From one session to a later one: interfaces stay, and the requests that come in wait behind
the others, with field nodes of the given depth above them. -/
structure Advances (setting : Setting) (depth : Nat) (before after : Session) : Prop where
  kept : ∀ tree, before.HasInterface tree → after.HasInterface tree
  waiting : ∃ more, after.pending = before.pending ++ more ∧
    ∀ request ∈ more, request.Deep setting.document depth

theorem Advances.trans {middle : Session} (h : Advances setting depth before middle)
    (h' : Advances setting depth middle after) : Advances setting depth before after := by
  obtain ⟨front, hFront, hDeep⟩ := h.waiting
  obtain ⟨back, hBack, hDeep'⟩ := h'.waiting
  refine ⟨fun tree hTree => h'.kept tree (h.kept tree hTree), front ++ back, ?_, ?_⟩
  · rw [hBack, hFront, List.append_assoc]
  · intro request hRequest
    rcases List.mem_append.mp hRequest with hRequest | hRequest
    · exact hDeep request hRequest
    · exact hDeep' request hRequest

theorem Advances.of_eq (hInterfaces : after.interfaces = before.interfaces)
    (hPending : after.pending = before.pending) : Advances setting depth before after := by
  refine ⟨?_, [], by rw [hPending, List.append_nil], by simp⟩
  rintro tree ⟨model, hModel⟩
  exact ⟨model, by rwa [Session.interface?, hInterfaces]⟩

/-- The step keeps the queue in order and brings in requests of the given depth only. -/
def Build.Proceeds {α : Type} (setting : Setting) (others : List Request) (depth : Nat)
    (step : Build α) : Prop :=
  ∀ before value after, step.Yields before value after → Underway setting others before →
    Underway setting others after ∧ Advances setting depth before after

namespace Build.Proceeds

variable {α β : Type}

theorem pure (value : α) : Proceeds setting others depth (Pure.pure value : Build α) := by
  intro before result after h hUnderway
  rw [yields_pure] at h
  obtain ⟨_, rfl⟩ := h
  exact ⟨hUnderway, .of_eq rfl rfl⟩

theorem throw (cause : ModelError) :
    Proceeds setting others depth (MonadExcept.throw cause : Build α) :=
  fun _ _ _ h => absurd h (yields_throw _ _)

theorem bind {step : Build α} {next : α → Build β} (hStep : Proceeds setting others depth step)
    (hNext : ∀ value, Proceeds setting others depth (next value)) :
    Proceeds setting others depth (step >>= next) := by
  intro before result after h hUnderway
  rw [yields_bind] at h
  obtain ⟨value, middle, hFirst, hSecond⟩ := h
  obtain ⟨hMiddle, hAdvances⟩ := hStep before value middle hFirst hUnderway
  obtain ⟨hAfter, hOnward⟩ := hNext value middle result after hSecond hMiddle
  exact ⟨hAfter, hAdvances.trans hOnward⟩

theorem map {step : Build α} (h : Proceeds setting others depth step) (f : α → β) :
    Proceeds setting others depth (f <$> step) := by
  rw [map_eq_pure_bind]
  exact bind h fun _ => pure _

theorem requestName (key : OriginKey) (proposed : String) :
    Proceeds setting others depth (Build.requestName key proposed) := by
  intro before name after h hUnderway
  rw [yields_requestName] at h
  obtain ⟨_, rfl⟩ := h
  exact ⟨hUnderway.transfer rfl rfl rfl, .of_eq rfl rfl⟩

theorem register (model : Model) : Proceeds setting others depth (Build.register model) := by
  intro before result after h hUnderway
  rw [yields_register] at h
  subst h
  exact ⟨hUnderway.transfer rfl rfl rfl, .of_eq rfl rfl⟩

theorem resultParser (returnType : InterfaceModel) (classes : List ClassModel)
    (discriminators : OrderedMap String) :
    Proceeds setting others depth
      (Build.resultParser task request returnType classes discriminators) := by
  unfold Build.resultParser
  apply bind (requestName _ _)
  intro name
  exact bind (register _) fun _ => pure _

end Build.Proceeds

/-- A request for selections of the document is grounded, if the trees that it is to extend were
noted before. -/
theorem Build.Inquiry.Fulfilled.grounded {inquiry : Build.Inquiry}
    (h : inquiry.Fulfilled setting request) (hUnderway : Underway setting others session)
    (hNodes : inquiry.selections ⊆ setting.document.nodes)
    (hBases : ∀ base ∈ inquiry.bases, ∃ entry ∈ session.returnTrees, entry.2 = base) :
    request.Grounded setting fun tree => session.HasInterface tree ∨
      ∃ earlier ∈ others ++ session.pending, tree.Within earlier.returnTree := by
  have hOwn : request.selections ⊆ setting.document.nodes := h.selections ▸ hNodes
  obtain ⟨collected, hCollected, hReturn⟩ := h.returns
  -- The children of the whole selection set stem from it, or are trees that were noted.
  have hChild : ∀ child ∈ Build.addTrees collected.fragments inquiry.bases,
      setting.Stems request.selections child ∨ ∃ entry ∈ session.returnTrees, entry.2 = child := by
    intro child hMem
    rcases Build.mem_of_mem_addTrees hMem with hFragment | hBase
    · exact .inl (Setting.stems_of_collectIn hCollected hFragment)
    · exact .inr (hBases child hBase)
  have hWhole : ∀ tree : FragmentTree, tree.Within request.returnTree →
      tree = request.whole (Build.addTrees collected.fragments inquiry.bases) ∨
        ∃ child ∈ Build.addTrees collected.fragments inquiry.bases, tree.Within child := by
    intro tree hWithin
    rw [hReturn] at hWithin
    exact FragmentTree.within_iff.mp (hWithin.trans (FragmentTree.within_hoist _ _))
  refine ⟨hOwn, ?_, ?_⟩
  · intro tree hWithin
    rcases hWhole tree hWithin with rfl | ⟨child, hMem, hInner⟩
    · exact ⟨hOwn, .inl ⟨_, rfl⟩⟩
    · rcases hChild child hMem with hStems | ⟨entry, hEntry, rfl⟩
      · exact hStems.honest hOwn tree hInner
      · exact (hUnderway.returned entry hEntry).1 tree hInner
  · intro tree hWithin
    rcases hWhole tree hWithin with rfl | ⟨child, hMem, hInner⟩
    · exact .inl fun _ hLeads => hLeads
    · rcases hChild child hMem with hStems | ⟨entry, hEntry, rfl⟩
      · exact .inl fun _ hLeads => hStems.leads hInner hLeads
      · rcases (hUnderway.returned entry hEntry).2 with hHas | ⟨earlier, hEarlier, hSame⟩
        · exact .inr (.inl (hUnderway.hasInterface_within hHas hInner))
        · exact .inr (.inr ⟨earlier, hEarlier, hSame ▸ hInner⟩)

/-- Asking for selections of the document brings in one request. -/
theorem Underway.inquire {inquiry : Build.Inquiry} {name : String}
    (h : Underway task.toSetting others before)
    (hNodes : inquiry.selections ⊆ task.document.nodes)
    (hBases : ∀ base ∈ inquiry.bases, ∃ entry ∈ before.returnTrees, entry.2 = base)
    (hDeep : ∀ request : Request, request.selections = inquiry.selections →
      request.Deep task.document depth)
    (hYields : (Build.request task inquiry).Yields before name after) :
    Underway task.toSetting others after ∧ Advances task.toSetting depth before after := by
  obtain ⟨request, proposed, hFulfilled, _, _, rfl⟩ := Build.yields_request hYields
  have hNamed : Underway task.toSetting others { before with
      names := (before.names.request request.returnTree.key proposed).2 } :=
    h.transfer rfl rfl rfl
  refine ⟨hNamed.enqueue (hFulfilled.grounded hNamed hNodes hBases),
    fun _ hTree => hTree, [request], rfl, ?_⟩
  intro other hOther
  rw [List.mem_singleton.mp hOther]
  exact hDeep request hFulfilled.selections

/-- The field nodes stand beneath the given number of others. -/
def Document.Beneath (document : Document) (depth : Nat) (nodes : List FieldNode) : Prop :=
  nodes ≠ [] ∧ ∀ node ∈ nodes, ∃ chain, chain.length = depth ∧ document.Nested (node :: chain)

theorem Document.Beneath.subset_nodes {document : Document} (hDocument : document.Accepted)
    {nodes : List FieldNode} (h : document.Beneath depth nodes) :
    nodes.flatMap FieldNode.selections ⊆ document.nodes := by
  intro selection hSelection
  obtain ⟨node, hNode, hInner⟩ := List.mem_flatMap.mp hSelection
  obtain ⟨_, _, hNested⟩ := h.2 node hNode
  have hReached := hNested.mem_reachedNodes hDocument List.mem_cons_self
  exact Document.reachedNodes_subset (Document.inner_subset_reachedNodes hReached hInner)

namespace Build.Proceeds

variable (hDocument : task.document.Accepted) {merged : MergedField} {fields : List MergedField}

include hDocument

/-- What is asked for beneath a field lies one level deeper than the nodes of the field. -/
theorem requestField (hMerged : task.document.Beneath depth merged.nodes) (declared : SchemaType)
    (overridden : List MergedField) :
    Proceeds task.toSetting others (depth + 1)
      (Build.requestField task merged declared overridden) := by
  intro before name after h hUnderway
  unfold Build.requestField at h
  rw [yields_get_bind] at h
  split at h
  · exact pure _ before name after h hUnderway
  · rw [yields_get_bind] at h
    refine hUnderway.inquire (hMerged.subset_nodes hDocument) ?_ ?_ h
    · intro base hBase
      rcases Build.mem_of_mem_addTrees hBase with hNone | hBase
      · cases hNone
      · obtain ⟨earlier, _, hFound⟩ := List.mem_filterMap.mp hBase
        exact ⟨_, Association.mem_of_lookup hFound, rfl⟩
    · exact fun request hSelections => .of_nodes merged.nodes hMerged.1 hMerged.2 hSelections

theorem fieldModel (hMerged : task.document.Beneath depth merged.nodes)
    (overridden : List MergedField) :
    Proceeds task.toSetting others (depth + 1) (Build.fieldModel task merged overridden) := by
  unfold Build.fieldModel
  dsimp only
  split
  · exact bind (throw _) fun _ => pure _
  · split
    · exact bind (map (requestField hDocument hMerged _ overridden) _) fun _ => pure _
    · split
      · exact bind (throw _) fun _ => pure _
      · exact bind (pure _) fun _ => pure _

theorem declareFields (bases : List (InterfaceModel × List MergedField))
    (hFields : ∀ merged ∈ fields, task.document.Beneath depth merged.nodes) :
    Proceeds task.toSetting others (depth + 1) (Build.declareFields task bases fields) := by
  induction fields with
  | nil => exact pure _
  | cons merged rest ih =>
      have hRest := ih fun other hOther => hFields other (List.mem_cons_of_mem _ hOther)
      have hDeclare : ∀ overridden, Proceeds task.toSetting others (depth + 1) (do
          let field ← Build.fieldModel task merged overridden
          return field :: (← Build.declareFields task bases rest)) := by
        intro overridden
        apply bind (fieldModel hDocument (hFields merged List.mem_cons_self) overridden)
        intro field
        exact bind hRest fun _ => pure _
      unfold Build.declareFields
      split
      · exact hDeclare []
      · dsimp only
        split
        · exact hDeclare _
        · exact hRest

end Build.Proceeds

/-- All field nodes that the tree's selections lead to stand beneath the given number of others. -/
def FragmentTree.ReachesTo (setting : Setting) (depth : Nat) (tree : FragmentTree) : Prop :=
  ∀ node, setting.document.Leads tree.selections node →
    ∃ chain, chain.length = depth ∧ setting.document.Nested (node :: chain)

/-- The fields of such a tree are merged from such nodes. -/
theorem Setting.beneath_of_treeFields (hDocument : setting.document.Accepted)
    (hPositions : setting.document.DistinctPositions) (hHonest : setting.Honest tree)
    (hDepth : tree.ReachesTo setting depth) {fields : List MergedField}
    (hFields : setting.treeFields path tree = .ok fields) :
    ∀ merged ∈ fields, setting.document.Beneath depth merged.nodes := by
  intro merged hMerged
  obtain ⟨occurrences, hMerge, hOccurrences⟩ := Setting.merged_of_treeFields hFields
  have hFrom := hMerge.each merged hMerged
  constructor
  · obtain ⟨first, _, _, _, hFirst⟩ := hFrom.head_node
    exact List.ne_nil_of_mem (List.mem_of_mem_head? hFirst)
  · intro node hNode
    obtain ⟨occurrence, hOccurrence, _, rfl⟩ := (hFrom.mem_nodes_iff node).mp hNode
    have hMerges := (hOccurrences occurrence).mp hOccurrence
    exact hDepth _ (hMerges.leads hDocument hPositions hHonest)

/-- Each type case is the selections collected at some type. -/
theorem Setting.exists_collectIn_of_typeCases {declared : SchemaType}
    {selections : List Selection} {cases : List Collected} {case : Collected}
    (h : setting.typeCases declared selections path = .ok cases) (hCase : case ∈ cases) :
    ∃ type, setting.collectIn declared type selections path = .ok case := by
  unfold typeCases at h
  rw [Outcome.bind_eq_ok_iff] at h
  obtain ⟨types, _, hCases⟩ := h
  obtain ⟨possible, _, hOne⟩ := Outcome.exists_left (Outcome.mapM_eq_ok hCases) hCase
  unfold typeCase at hOne
  split at hOne
  · cases hOne
  · exact ⟨_, hOne⟩

/-- A tree that may get its interface: a tree in it that leads any deeper than it should has its
interface already. -/
structure Session.Awaits (setting : Setting) (depth : Nat) (session : Session)
    (tree : FragmentTree) : Prop where
  honest : setting.Honest tree
  within : ∀ subtree : FragmentTree, subtree.Within tree →
    subtree.ReachesTo setting depth ∨ session.HasInterface subtree

theorem Session.Awaits.onward (h : before.Awaits setting depth tree)
    (hAdvances : Advances setting (depth + 1) before after) : after.Awaits setting depth tree :=
  ⟨h.honest, fun subtree hWithin =>
    (h.within subtree hWithin).imp_right (hAdvances.kept subtree)⟩

theorem Session.Awaits.child (h : session.Awaits setting depth tree) {child : FragmentTree}
    (hChild : child ∈ tree.children) : session.Awaits setting depth child :=
  ⟨h.honest.within (.inner hChild (.self _)),
    fun subtree hWithin => h.within subtree (.inner hChild hWithin)⟩

namespace Underway

theorem synthesizeEach {trees : List FragmentTree}
    (hEach : ∀ tree ∈ trees, ∀ {before model after}, Underway task.toSetting others before →
      before.Awaits task.toSetting depth tree →
      (Build.synthesize task path tree).Yields before model after →
      Underway task.toSetting others after ∧ Advances task.toSetting (depth + 1) before after ∧
        after.HasInterface tree)
    {bases : List (InterfaceModel × List MergedField)} (h : Underway task.toSetting others before)
    (hAwaits : ∀ tree ∈ trees, before.Awaits task.toSetting depth tree)
    (hYields : (Build.synthesizeEach task path trees).Yields before bases after) :
    Underway task.toSetting others after ∧ Advances task.toSetting (depth + 1) before after ∧
      ∀ tree ∈ trees, after.HasInterface tree := by
  induction trees generalizing before bases with
  | nil =>
      rw [Build.synthesizeEach, Build.yields_pure] at hYields
      obtain ⟨_, rfl⟩ := hYields
      exact ⟨h, .of_eq rfl rfl, by simp⟩
  | cons tree rest ih =>
      obtain ⟨model, made, _, more, hModel, _, hMore, _⟩ :=
        Build.yields_synthesizeEach_cons.mp hYields
      obtain ⟨hMade, hFirst, hTree⟩ :=
        hEach tree List.mem_cons_self h (hAwaits tree List.mem_cons_self) hModel
      obtain ⟨hAfter, hRest, hOthers⟩ := ih
        (fun other hOther => hEach other (List.mem_cons_of_mem _ hOther)) hMade
        (fun other hOther => (hAwaits other (List.mem_cons_of_mem _ hOther)).onward hFirst) hMore
      refine ⟨hAfter, hFirst.trans hRest, ?_⟩
      intro other hOther
      rcases List.mem_cons.mp hOther with rfl | hOther
      · exact hRest.kept _ hTree
      · exact hOthers other hOther

section Document

variable (hDocument : task.document.Accepted) (hPositions : task.document.DistinctPositions)

include hDocument hPositions

theorem assemble {bases : List (InterfaceModel × List MergedField)} {model : InterfaceModel}
    (h : Underway task.toSetting others before) (hHonest : task.Honest tree)
    (hDepth : tree.ReachesTo task.toSetting depth)
    (hChildren : ∀ child ∈ tree.children, before.HasInterface child)
    (hYields : (Build.assemble task path tree bases).Yields before model after) :
    Underway task.toSetting others after ∧ Advances task.toSetting (depth + 1) before after ∧
      after.HasInterface tree := by
  obtain ⟨fields, declared, asked, name, named, hFields, hDeclare, hName, _, rfl⟩ :=
    Build.yields_assemble hYields
  have hBeneath := Setting.beneath_of_treeFields hDocument hPositions hHonest hDepth hFields
  obtain ⟨hAsked, hAsking⟩ :=
    Build.Proceeds.declareFields hDocument bases hBeneath _ _ _ hDeclare h
  obtain ⟨hNamed, hNaming⟩ := Build.Proceeds.requestName _ _ _ _ _ hName hAsked
  have hOnward := hAsking.trans hNaming
  have hAdds : Advances task.toSetting (depth + 1) named (named.addInterface tree.key model) :=
    ⟨fun other hOther => hasInterface_addInterface.mpr (.inr hOther), [], by
      rw [List.append_nil]
      rfl, by simp⟩
  exact ⟨hNamed.addInterface (fun child hChild => hOnward.kept child (hChildren child hChild))
    model, hOnward.trans hAdds, hasInterface_addInterface.mpr (.inl rfl)⟩

/-- A tree that may get its interface gets it, and all that is asked for on the way lies one level
deeper. -/
theorem synthesize {model : InterfaceModel} (h : Underway task.toSetting others before)
    (hAwaits : before.Awaits task.toSetting depth tree)
    (hYields : (Build.synthesize task path tree).Yields before model after) :
    Underway task.toSetting others after ∧ Advances task.toSetting (depth + 1) before after ∧
      after.HasInterface tree := by
  induction tree using FragmentTree.induct generalizing before model after with
  | node tree ih =>
      rcases Build.yields_synthesize.mp hYields with
        ⟨hFound, rfl⟩ | ⟨hNew, bases, made, hBases, hAssemble⟩
      · exact ⟨h, .of_eq rfl rfl, model, hFound⟩
      · obtain ⟨hMade, hFirst, hChildren⟩ := synthesizeEach (fun child hChild => ih child hChild) h
          (fun child hChild => hAwaits.child hChild) hBases
        -- The tree had no interface, so it leads no deeper than it should.
        have hDepth : tree.ReachesTo task.toSetting depth := by
          rcases hAwaits.within tree (.self _) with hDepth | ⟨found, hFound⟩
          · exact hDepth
          · rw [hNew] at hFound
            cases hFound
        obtain ⟨hAfter, hLast, hHas⟩ :=
          hMade.assemble hDocument hPositions hAwaits.honest hDepth hChildren hAssemble
        exact ⟨hAfter, hFirst.trans hLast, hHas⟩

/-- Trees that stem from selections of the given depth may always get their interfaces. -/
theorem extraInterfaces {trees : List FragmentTree} {selections : List Selection}
    (hNodes : selections ⊆ task.document.nodes)
    (hDepth : ∀ node, task.document.Leads selections node →
      ∃ chain, chain.length = depth ∧ task.document.Nested (node :: chain))
    (hTrees : ∀ tree ∈ trees, ∃ whole, task.Stems selections whole ∧ tree.Within whole)
    (represented : List SchemaType) :
    Build.Proceeds task.toSetting others (depth + 1)
      (Build.extraInterfaces task path represented trees) := by
  induction trees with
  | nil => exact Build.Proceeds.pure _
  | cons tree rest ih =>
      have hRest := ih fun other hOther => hTrees other (List.mem_cons_of_mem _ hOther)
      have hTree : Build.Proceeds task.toSetting others (depth + 1)
          (Build.synthesize task path tree) := by
        intro before model after hYields hUnderway
        obtain ⟨whole, hStems, hWithin⟩ := hTrees tree List.mem_cons_self
        have hAwaits : before.Awaits task.toSetting depth tree :=
          ⟨(hStems.honest hNodes).within hWithin, fun subtree hInner =>
            .inl fun node hLeads => hDepth node (hStems.leads (hInner.trans hWithin) hLeads)⟩
        obtain ⟨hAfter, hAdvances, _⟩ :=
          hUnderway.synthesize hDocument hPositions hAwaits hYields
        exact ⟨hAfter, hAdvances⟩
      unfold Build.extraInterfaces
      split
      · exact Build.Proceeds.bind hTree fun _ => .bind hRest fun _ => .pure _
      · exact hRest

/-- The class of a type case asks for nothing that is not beneath fields of the request. -/
theorem caseClass {case : Collected} (hNodes : request.selections ⊆ task.document.nodes)
    (hDeep : request.Deep task.document depth)
    (hStems : ∀ tree ∈ case.fragments, task.Stems request.selections tree)
    (returnType : InterfaceModel) (represented : List SchemaType) (type proposed : String) :
    Build.Proceeds task.toSetting others (depth + 1)
      (Build.caseClass task request returnType case represented type proposed) := by
  have hExtras : ∀ tree ∈ request.caseExtras case,
      ∃ whole, task.Stems request.selections whole ∧ tree.Within whole := by
    intro tree hTree
    obtain ⟨fragment, hFragment, hWithin⟩ := Request.within_of_mem_caseExtras hTree
    exact ⟨fragment, hStems fragment hFragment, hWithin⟩
  unfold Build.caseClass
  apply Build.Proceeds.bind
    (extraInterfaces hDocument hPositions hNodes hDeep.leads hExtras represented)
  intro more
  apply Build.Proceeds.bind (.requestName _ _)
  intro name
  exact .bind (.register _) fun _ => .pure _

theorem caseClasses {cases : List Collected} (hNodes : request.selections ⊆ task.document.nodes)
    (hDeep : request.Deep task.document depth)
    (hStems : ∀ case ∈ cases, ∀ tree ∈ case.fragments, task.Stems request.selections tree)
    (returnType : InterfaceModel) :
    Build.Proceeds task.toSetting others (depth + 1)
      (Build.caseClasses task request returnType cases) := by
  induction cases with
  | nil => exact Build.Proceeds.pure _
  | cons case rest ih =>
      have hRest := ih fun other hOther => hStems other (List.mem_cons_of_mem _ hOther)
      unfold Build.caseClasses
      apply Build.Proceeds.bind (caseClass hDocument hPositions hNodes hDeep
        (hStems case List.mem_cons_self) returnType _ _ _)
      intro model
      exact .bind hRest fun _ => .pure _

/-- Modelling the first request of the queue gives its return tree the interface. -/
theorem model {selected : SelectedModel}
    (h : Underway task.toSetting (request :: others) before)
    (hDeep : request.Deep task.document depth)
    (hYields : (Build.model task request).Yields before selected after) :
    Underway task.toSetting (request :: others) after ∧
      Advances task.toSetting (depth + 1) before after ∧
      after.HasInterface request.returnTree := by
  have hGrounded := h.lined.1
  have hAwaits : before.Awaits task.toSetting depth request.returnTree :=
    ⟨hGrounded.honest, fun subtree hWithin =>
      (hGrounded.within subtree hWithin).imp_left
        fun hOwn node hLeads => hDeep.leads node (hOwn node hLeads)⟩
  obtain ⟨cases, hCases, hModels⟩ := Build.yields_model hYields
  have hStems : ∀ case ∈ cases, ∀ tree ∈ case.fragments, task.Stems request.selections tree := by
    intro case hCase tree hTree
    obtain ⟨type, hCollected⟩ := Setting.exists_collectIn_of_typeCases hCases hCase
    exact Setting.stems_of_collectIn hCollected hTree
  cases hModels with
  | @lone returnType first rest _ _ _ _ _ hReturn hSplit _ hClass hParser =>
      obtain ⟨hMade, hMaking, hHas⟩ := h.synthesize hDocument hPositions hAwaits hReturn
      have hFirst := hStems first (hSplit ▸ List.mem_cons_self)
      obtain ⟨hClassed, hClassing⟩ := caseClass hDocument hPositions hGrounded.nodes hDeep hFirst
        returnType _ _ _ _ _ _ hClass hMade
      obtain ⟨hAfter, hParsing⟩ := Build.Proceeds.resultParser _ _ _ _ _ _ hParser hClassed
      exact ⟨hAfter, hMaking.trans (hClassing.trans hParsing),
        hParsing.kept _ (hClassing.kept _ hHas)⟩
  | @each returnType _ _ _ hReturn hClasses hParser =>
      obtain ⟨hMade, hMaking, hHas⟩ := h.synthesize hDocument hPositions hAwaits hReturn
      obtain ⟨hClassed, hClassing⟩ := caseClasses hDocument hPositions hGrounded.nodes hDeep hStems
        returnType _ _ _ hClasses hMade
      obtain ⟨hAfter, hParsing⟩ := Build.Proceeds.resultParser _ _ _ _ _ _ hParser hClassed
      exact ⟨hAfter, hMaking.trans (hClassing.trans hParsing),
        hParsing.kept _ (hClassing.kept _ hHas)⟩

/-- The first request of the queue is taken up. -/
theorem process (h : Underway task.toSetting (request :: others) before)
    (hDeep : request.Deep task.document depth)
    (hYields : (Build.process task request).Yields before () after) :
    Underway task.toSetting others after ∧ Advances task.toSetting (depth + 1) before after := by
  obtain ⟨selected, middle, hModel, hRest⟩ := Build.yields_process hYields
  obtain ⟨hMiddle, hAdvances, hHas⟩ := h.model hDocument hPositions hDeep hModel
  rcases hRest with ⟨_, rfl⟩ | ⟨details, name, proposed, named, _, hName, rfl⟩
  · exact ⟨hMiddle.taken hHas, hAdvances⟩
  · obtain ⟨hNamed, hNaming⟩ := Build.Proceeds.requestName _ _ _ _ _ hName hMiddle
    have hOnward := hAdvances.trans hNaming
    exact ⟨(hNamed.taken (hNaming.kept _ hHas)).transfer rfl rfl rfl,
      hOnward.trans (.of_eq rfl rfl)⟩

theorem processAll {requests : List Request} (h : Underway task.toSetting requests before)
    (hDeep : ∀ request ∈ requests, request.Deep task.document depth)
    (hYields : (Build.processAll task requests).Yields before () after) :
    Underway task.toSetting [] after ∧ Advances task.toSetting (depth + 1) before after := by
  induction requests generalizing before with
  | nil =>
      rw [Build.processAll, Build.yields_pure] at hYields
      obtain ⟨_, rfl⟩ := hYields
      exact ⟨h, .of_eq rfl rfl⟩
  | cons request rest ih =>
      rw [Build.processAll, Build.yields_bind] at hYields
      obtain ⟨_, middle, hFirst, hRest⟩ := hYields
      obtain ⟨hMiddle, hAdvances⟩ :=
        h.process hDocument hPositions (hDeep request List.mem_cons_self) hFirst
      obtain ⟨hAfter, hOnward⟩ :=
        ih hMiddle (fun other hOther => hDeep other (List.mem_cons_of_mem _ hOther)) hRest
      exact ⟨hAfter, hAdvances.trans hOnward⟩

/-- Rounds enough for the depth that is left leave nothing waiting. -/
theorem drain {rounds : Nat} (h : Underway task.toSetting [] before)
    (hDeep : ∀ request ∈ before.pending, request.Deep task.document depth)
    (hRounds : task.document.reachedCount < depth + rounds)
    (hYields : (Build.drain task rounds).Yields before () after) : after.pending = [] := by
  induction rounds generalizing before depth with
  | zero =>
      rw [Build.drain, Build.yields_pure] at hYields
      obtain ⟨_, rfl⟩ := hYields
      refine List.eq_nil_iff_forall_not_mem.mpr fun request hRequest => ?_
      have hBound := (hDeep request hRequest).le_reachedCount hDocument
      omega
  | succ rounds ih =>
      rw [Build.drain, Build.yields_get_bind] at hYields
      split at hYields
      · rename_i hNone
        rw [Build.yields_pure] at hYields
        obtain ⟨_, rfl⟩ := hYields
        exact hNone
      · rw [Build.yields_bind] at hYields
        obtain ⟨_, cleared, hModify, hYields⟩ := hYields
        rw [Build.yields_modify] at hModify
        subst hModify
        rw [Build.yields_bind] at hYields
        obtain ⟨_, middle, hAll, hRest⟩ := hYields
        obtain ⟨hMiddle, hAdvances⟩ :=
          processAll hDocument hPositions h.round hDeep hAll
        obtain ⟨more, hPending, hMore⟩ := hAdvances.waiting
        have hDeeper : ∀ request ∈ middle.pending,
            request.Deep task.document (depth + 1) := by
          rw [hPending]
          exact hMore
        exact ih hMiddle hDeeper (by omega) hRest

end Document

/-- Operations are asked for with no field above them. -/
theorem requestOperations (hDocument : task.document.Accepted) {operations : List Operation}
    (hOperations : operations ⊆ task.document.operations)
    (h : Underway task.toSetting [] before)
    (hYields : (Build.requestOperations task operations).Yields before () after) :
    Underway task.toSetting [] after ∧ Advances task.toSetting 0 before after := by
  induction operations generalizing before with
  | nil =>
      rw [Build.requestOperations, Build.yields_pure] at hYields
      obtain ⟨_, rfl⟩ := hYields
      exact ⟨h, .of_eq rfl rfl⟩
  | cons operation rest ih =>
      obtain ⟨hOperation, hRest⟩ := List.cons_subset.mp hOperations
      rw [Build.requestOperations, Build.yields_bind] at hYields
      obtain ⟨_, middle, hFirst, hLater⟩ := hYields
      have hNodes : operation.selections ⊆ task.document.nodes :=
        List.Subset.trans (Document.selections_subset_reachedNodes hOperation)
          Document.reachedNodes_subset
      have hMiddle : Underway task.toSetting [] middle ∧
          Advances task.toSetting 0 before middle := by
        obtain ⟨_, declared, name, _, _, hName⟩ := Build.yields_requestOperation hFirst
        refine h.inquire hNodes (by simp [Build.operationInquiry]) ?_ hName
        intro request hSelections
        refine ⟨⟨[], rfl, .nil⟩, fun node hLeads => ⟨[], rfl, .outermost ?_⟩⟩
        refine hLeads.mem_reachedNodes hDocument ?_
        rw [hSelections]
        exact Document.selections_subset_reachedNodes hOperation
      obtain ⟨hAfter, hOnward⟩ := ih hRest hMiddle.1 hLater
      exact ⟨hAfter, hMiddle.2.trans hOnward⟩

end Underway

/-- After the rounds that a run has nothing waits. -/
theorem pending_of_drain (hDocument : task.document.Accepted)
    (hPositions : task.document.DistinctPositions) {names : Names} {operations : List Operation}
    (hOperations : operations ⊆ task.document.operations) {asked drained : Session}
    (hAsk : (Build.requestOperations task operations).Yields (.initial names) () asked)
    (hDrain : (Build.drain task (Nat.pow 2 task.document.reachedCount)).Yields asked () drained) :
    drained.pending = [] := by
  obtain ⟨hAsked, hAdvances⟩ :=
    (Underway.initial names).requestOperations hDocument hOperations hAsk
  obtain ⟨more, hPending, hDeep⟩ := hAdvances.waiting
  have hOutermost : ∀ request ∈ asked.pending, request.Deep task.document 0 := by
    rw [hPending]
    exact hDeep
  have hRounds : task.document.reachedCount < Nat.pow 2 task.document.reachedCount :=
    Nat.lt_two_pow_self
  exact hAsked.drain hDocument hPositions hOutermost (by omega) hDrain

end ResponseModels
