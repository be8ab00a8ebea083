import ResponseModels.Proofs.Document.Acyclic
import ResponseModels.Proofs.Schema.Possible
import ResponseModels.Proofs.Selection.Trees

/-! Growing trees from a selection set. Each fragment selection opens a branch; a tree is
grown from those branches that apply, and the trees that are grown hold exactly the field nodes
that can be reached through applying fragments. -/
namespace ResponseModels

open GraphQL

/-- A fragment as a selection opens it, without what it takes in. -/
structure Branch where
  kind : FragmentKind
  origin : Origin
  name : String
  condition : SchemaType
  selections : List Selection

def FragmentTree.branch (tree : FragmentTree) : Branch :=
  ⟨tree.kind, tree.origin, tree.name, tree.condition, tree.selections⟩

/-- A tree is its branch and its children. -/
theorem FragmentTree.eq_of_branch {tree other : FragmentTree} (hBranch : tree.branch = other.branch)
    (hChildren : tree.children = other.children) : tree = other := by
  obtain ⟨kind, origin, name, condition, selections, children⟩ := tree
  obtain ⟨kind', origin', name', condition', selections', children'⟩ := other
  injection hBranch
  simp_all [FragmentTree.kind, FragmentTree.origin, FragmentTree.name, FragmentTree.condition,
    FragmentTree.selections, FragmentTree.children]

theorem Document.locate_inj {document : Document} {position other : Position}
    (h : document.locate position = document.locate other) : position = other := by
  simp only [Document.locate, Location.ofDocument, Location.document.injEq,
    FilePosition.ofPosition, FilePosition.mk.injEq] at h
  cases position
  cases other
  simp_all

namespace Setting

variable {setting : Setting} {type scope : SchemaType} {selections : List Selection}
  {occurrence : Occurrence}

/-- A schema and a document that have been read in, with each node of the document at a place
of its own. -/
structure Admissible (setting : Setting) : Prop where
  schema : setting.schema.Built
  document : setting.document.Accepted
  positions : setting.document.DistinctPositions

/-- The type is the schema's own. -/
def Knows (setting : Setting) (type : SchemaType) : Prop :=
  setting.schema.type? type.name = some type

theorem Admissible.knows_of_type? (h : setting.Admissible) {name : String}
    (hType : setting.schema.type? name = some type) : setting.Knows type := by
  rwa [Knows, h.schema.wellFormed.name_of_type? hType]

/-- The branch that a fragment selection opens when it is written in a selection set on `scope`. -/
inductive Opens (setting : Setting) (scope : SchemaType) : Selection → Branch → Prop
  | spread {position : Position} {name : String} {fragment : Fragment} {condition : SchemaType} :
    setting.document.fragment? name = some fragment →
    setting.schema.type? fragment.condition = some condition →
    Opens setting scope (.spread position name)
      ⟨.named, .namedFragment (setting.document.locate fragment.position) fragment.name,
        fragment.name, condition, fragment.selections⟩
  | inlineOn {position : Position} {name : String} {selections : List Selection}
      {condition : SchemaType} :
    setting.schema.type? name = some condition →
    Opens setting scope (.inline position (some name) selections)
      ⟨.inline, .inlineFragment (setting.document.locate position) condition.name,
        condition.name, condition, selections⟩
  | inline {position : Position} {selections : List Selection} :
    Opens setting scope (.inline position none selections)
      ⟨.inline, .inlineFragment (setting.document.locate position) scope.name,
        scope.name, scope, selections⟩

namespace Opens

variable {selection : Selection} {branch : Branch}

theorem knows (h : setting.Opens scope selection branch) (hSetting : setting.Admissible)
    (hScope : setting.Knows scope) : setting.Knows branch.condition := by
  cases h with
  | spread _ hCondition => exact hSetting.knows_of_type? hCondition
  | inlineOn hCondition => exact hSetting.knows_of_type? hCondition
  | inline => exact hScope

theorem subset_nodes (h : setting.Opens scope selection branch)
    (hNode : selection ∈ setting.document.nodes) :
    branch.selections ⊆ setting.document.nodes := by
  cases h with
  | spread hFragment _ =>
      exact fun _ hMem => Document.mem_nodes_of_body
        (Document.body_of_fragment (Document.mem_values_of_fragment? hFragment)) hMem
  | inlineOn _ => exact fun _ hMem => Document.mem_nodes_of_body (Document.body_of_node hNode) hMem
  | inline => exact fun _ hMem => Document.mem_nodes_of_body (Document.body_of_node hNode) hMem

/-- A selection opens at most one branch. -/
theorem unique {other : Branch} (h : setting.Opens scope selection branch)
    (h' : setting.Opens scope selection other) : other = branch := by
  cases h with
  | spread hFragment hCondition =>
      cases h' with
      | spread hFragment' hCondition' =>
          rw [hFragment] at hFragment'
          cases hFragment'
          rw [hCondition] at hCondition'
          cases hCondition'
          rfl
  | inlineOn hCondition =>
      cases h' with
      | inlineOn hCondition' =>
          rw [hCondition] at hCondition'
          cases hCondition'
          rfl
  | inline =>
      cases h'
      rfl

theorem fragment_kind (h : setting.Opens scope selection branch) : branch.kind ≠ .synthetic := by
  cases h <;> nofun

/-- An inline fragment opens a branch of the type of its origin. -/
theorem inline_inv {position other : Position} {written : Option String}
    {inner : List Selection} {name : String}
    (h : setting.Opens scope (.inline position written inner) branch)
    (hOrigin : branch.origin = .inlineFragment (setting.document.locate other) name) :
    position = other ∧ branch = ⟨.inline, branch.origin, name, branch.condition, inner⟩ ∧
      branch.condition.name = name := by
  cases h with
  | inlineOn _ =>
      injection hOrigin with hLocation hName
      exact ⟨Document.locate_inj hLocation, by rw [hName], hName⟩
  | inline =>
      injection hOrigin with hLocation hName
      exact ⟨Document.locate_inj hLocation, by rw [hName], hName⟩

/-- Branches of one origin are the same. -/
theorem branch_eq (hSetting : setting.Admissible) {other : SchemaType} {elsewhere : Selection}
    {branch' : Branch} (h : setting.Opens scope selection branch)
    (h' : setting.Opens other elsewhere branch') (hScope : setting.Knows scope)
    (hOther : setting.Knows other) (hNode : selection ∈ setting.document.nodes)
    (hNode' : elsewhere ∈ setting.document.nodes) (hOrigin : branch.origin = branch'.origin) :
    branch = branch' := by
  have hKnows := h.knows hSetting hScope
  have hKnows' := h'.knows hSetting hOther
  cases selection with
  | field => cases h
  | spread position name =>
      cases h with
      | spread hFragment hCondition =>
          cases h' with
          | spread hFragment' hCondition' =>
              injection hOrigin with _ hName
              rw [hSetting.document.fragment?_name hFragment,
                hSetting.document.fragment?_name hFragment'] at hName
              subst hName
              rw [hFragment] at hFragment'
              cases hFragment'
              rw [hCondition] at hCondition'
              cases hCondition'
              rfl
          | inlineOn _ => cases hOrigin
          | inline => cases hOrigin
  | inline position written inner =>
      cases elsewhere with
      | field => cases h'
      | spread position' name =>
          cases h'
          cases h <;> cases hOrigin
      | inline position' written' inner' =>
          obtain ⟨name, hName⟩ : ∃ name, branch'.origin =
              .inlineFragment (setting.document.locate position') name := by
            cases h' <;> exact ⟨_, rfl⟩
          obtain ⟨hPosition, hBranch, hCondition⟩ := h.inline_inv (hOrigin.trans hName)
          obtain ⟨_, hBranch', hCondition'⟩ := h'.inline_inv hName
          have hSame := hSetting.positions.node_eq hNode hNode' hPosition
          have hType : branch.condition = branch'.condition := by
            rw [Knows, hCondition] at hKnows
            rw [Knows, hCondition', hKnows] at hKnows'
            exact Option.some.inj hKnows'
          injection hSame with _ _ hInner
          rw [hBranch, hBranch', hOrigin, hType, hInner]

end Opens

/-- A field node that is met when a selection set on `scope` is collected at `type`: it stands
among the selections, or in a fragment among them that applies to the type. -/
inductive Reaches (setting : Setting) (type : SchemaType) :
    SchemaType → List Selection → Occurrence → Prop
  | field {scope : SchemaType} {selections : List Selection} {node : FieldNode} :
    node.selection ∈ selections → Reaches setting type scope selections ⟨scope, node⟩
  | branch {scope : SchemaType} {selections : List Selection} {selection : Selection}
      {branch : Branch} {occurrence : Occurrence} :
    selection ∈ selections → setting.Opens scope selection branch →
    setting.schema.applies branch.condition type = true →
    Reaches setting type branch.condition branch.selections occurrence →
    Reaches setting type scope selections occurrence

/-- More is reached from more selections, and at a type to which more fragments apply. -/
theorem Reaches.mono (hSetting : setting.Admissible) {other : SchemaType}
    (hApplies : ∀ condition, setting.Knows condition →
      setting.schema.applies condition type = true → setting.schema.applies condition other = true)
    (h : setting.Reaches type scope selections occurrence) (hScope : setting.Knows scope)
    {more : List Selection} (hMore : selections ⊆ more) :
    setting.Reaches other scope more occurrence := by
  induction h generalizing more with
  | field hMem => exact .field (hMore hMem)
  | branch hMem hOpens hBranch _ ih =>
      have hCondition := hOpens.knows hSetting hScope
      exact .branch (hMore hMem) hOpens (hApplies _ hCondition hBranch)
        (ih hCondition (List.Subset.refl _))

theorem Reaches.mem_nodes (h : setting.Reaches type scope selections occurrence)
    (hNodes : selections ⊆ setting.document.nodes) :
    occurrence.node.selection ∈ setting.document.nodes := by
  induction h with
  | field hMem => exact hNodes hMem
  | branch hMem hOpens _ _ ih => exact ih (hOpens.subset_nodes (hNodes hMem))

theorem reaches_append {front back : List Selection} :
    setting.Reaches type scope (front ++ back) occurrence ↔
      setting.Reaches type scope front occurrence ∨
        setting.Reaches type scope back occurrence := by
  constructor
  · intro h
    cases h with
    | field hMem =>
        rcases List.mem_append.mp hMem with hMem | hMem
        · exact .inl (.field hMem)
        · exact .inr (.field hMem)
    | branch hMem hOpens hApplies hReaches =>
        rcases List.mem_append.mp hMem with hMem | hMem
        · exact .inl (.branch hMem hOpens hApplies hReaches)
        · exact .inr (.branch hMem hOpens hApplies hReaches)
  · rintro (h | h)
    all_goals
      cases h with
      | field hMem => exact .field (by simp [hMem])
      | branch hMem hOpens hApplies hReaches =>
          exact .branch (by simp [hMem]) hOpens hApplies hReaches

theorem reaches_node {node : FieldNode} :
    setting.Reaches type scope [node.selection] occurrence ↔ occurrence = ⟨scope, node⟩ := by
  constructor
  · intro h
    cases h with
    | field hMem => rw [FieldNode.selection_inj (List.mem_singleton.mp hMem)]
    | branch hMem hOpens =>
        rw [List.mem_singleton.mp hMem] at hOpens
        cases hOpens
  · rintro rfl
    exact .field (List.mem_singleton.mpr rfl)

/-- A fragment selection reaches what its branch does, if it applies. -/
theorem Opens.reaches_iff {selection : Selection} {branch : Branch}
    (hOpens : setting.Opens scope selection branch) :
    setting.Reaches type scope [selection] occurrence ↔
      setting.schema.applies branch.condition type = true ∧
        setting.Reaches type branch.condition branch.selections occurrence := by
  constructor
  · intro h
    cases h with
    | field hMem =>
        rw [← List.mem_singleton.mp hMem] at hOpens
        cases hOpens
    | branch hMem hOther hApplies hReaches =>
        rw [List.mem_singleton.mp hMem] at hOther
        rw [hOpens.unique hOther] at hApplies hReaches
        exact ⟨hApplies, hReaches⟩
  · rintro ⟨hApplies, hReaches⟩
    exact .branch (List.mem_singleton.mpr rfl) hOpens hApplies hReaches

/-- The trees that are grown at `type` from a selection set on `scope`: one tree for each origin
among the applying branches, each grown on from its own selections. -/
inductive Grown (setting : Setting) (type : SchemaType) :
    SchemaType → List Selection → List FragmentTree → Prop
  | intro {scope : SchemaType} {selections : List Selection} {trees : List FragmentTree}
      (distinct : (trees.map FragmentTree.origin).Nodup)
      (opened : ∀ tree ∈ trees, ∃ selection ∈ selections,
        setting.Opens scope selection tree.branch ∧
          setting.schema.applies tree.condition type = true)
      (complete : ∀ selection ∈ selections, ∀ branch, setting.Opens scope selection branch →
        setting.schema.applies branch.condition type = true →
        ∃ tree ∈ trees, tree.origin = branch.origin)
      (inner : ∀ tree ∈ trees, Grown setting type tree.condition tree.selections tree.children) :
    Grown setting type scope selections trees

namespace Grown

variable {trees : List FragmentTree}

theorem nil : setting.Grown type scope [] [] :=
  .intro List.nodup_nil (by simp) (by simp) (by simp)

theorem distinct (h : setting.Grown type scope selections trees) :
    (trees.map FragmentTree.origin).Nodup := by
  cases h
  assumption

theorem opened (h : setting.Grown type scope selections trees) {tree : FragmentTree}
    (hTree : tree ∈ trees) : ∃ selection ∈ selections,
      setting.Opens scope selection tree.branch ∧
        setting.schema.applies tree.condition type = true := by
  cases h with
  | intro _ opened _ _ => exact opened tree hTree

theorem complete (h : setting.Grown type scope selections trees) {selection : Selection}
    (hSelection : selection ∈ selections) {branch : Branch}
    (hOpens : setting.Opens scope selection branch)
    (hApplies : setting.schema.applies branch.condition type = true) :
    ∃ tree ∈ trees, tree.origin = branch.origin := by
  cases h with
  | intro _ _ complete _ => exact complete selection hSelection branch hOpens hApplies

theorem inner (h : setting.Grown type scope selections trees) {tree : FragmentTree}
    (hTree : tree ∈ trees) :
    setting.Grown type tree.condition tree.selections tree.children := by
  cases h with
  | intro _ _ _ inner => exact inner tree hTree

/-- One more selection that opens no new branch that applies. -/
theorem skip (h : setting.Grown type scope selections trees) {selection : Selection}
    (hSkip : ∀ branch, setting.Opens scope selection branch →
      setting.schema.applies branch.condition type = true →
      ∃ tree ∈ trees, tree.origin = branch.origin) :
    setting.Grown type scope (selections ++ [selection]) trees := by
  refine .intro h.distinct ?_ ?_ fun tree hTree => h.inner hTree
  · intro tree hTree
    obtain ⟨other, hOther, hOpens⟩ := h.opened hTree
    exact ⟨other, List.mem_append_left _ hOther, hOpens⟩
  · intro other hOther branch hOpens hApplies
    rcases List.mem_append.mp hOther with hOther | hOther
    · exact h.complete hOther hOpens hApplies
    · rw [List.mem_singleton] at hOther
      exact hSkip branch (hOther ▸ hOpens) hApplies

/-- One more selection, and the tree of the branch that it opens. -/
theorem take (h : setting.Grown type scope selections trees) {selection : Selection}
    {tree : FragmentTree} (hOpens : setting.Opens scope selection tree.branch)
    (hApplies : setting.schema.applies tree.condition type = true)
    (hNew : ∀ other ∈ trees, other.origin ≠ tree.origin)
    (hInner : setting.Grown type tree.condition tree.selections tree.children) :
    setting.Grown type scope (selections ++ [selection]) (trees ++ [tree]) := by
  refine .intro ?_ ?_ ?_ ?_
  · rw [List.map_append, List.nodup_append]
    refine ⟨h.distinct, by simp, ?_⟩
    rintro _ hOld _ hLast rfl
    obtain ⟨other, hOther, hSame⟩ := List.mem_map.mp hOld
    simp only [List.map_cons, List.map_nil, List.mem_singleton] at hLast
    exact hNew other hOther (hSame.trans hLast)
  · intro other hOther
    rcases List.mem_append.mp hOther with hOther | hOther
    · obtain ⟨opener, hOpener, hOpened⟩ := h.opened hOther
      exact ⟨opener, List.mem_append_left _ hOpener, hOpened⟩
    · rw [List.mem_singleton.mp hOther]
      exact ⟨selection, by simp, hOpens, hApplies⟩
  · intro other hOther branch hBranch hBranchApplies
    rcases List.mem_append.mp hOther with hOther | hOther
    · obtain ⟨found, hFound, hSame⟩ := h.complete hOther hBranch hBranchApplies
      exact ⟨found, List.mem_append_left _ hFound, hSame⟩
    · rw [List.mem_singleton] at hOther
      subst hOther
      rw [hOpens.unique hBranch]
      exact ⟨tree, by simp, rfl⟩
  · intro other hOther
    rcases List.mem_append.mp hOther with hOther | hOther
    · exact h.inner hOther
    · rw [List.mem_singleton.mp hOther]
      exact hInner

/-- An applying branch is that of one of the trees. -/
theorem exists_tree (hSetting : setting.Admissible) (h : setting.Grown type scope selections trees)
    (hScope : setting.Knows scope) (hNodes : selections ⊆ setting.document.nodes)
    {selection : Selection} (hSelection : selection ∈ selections) {branch : Branch}
    (hOpens : setting.Opens scope selection branch)
    (hApplies : setting.schema.applies branch.condition type = true) :
    ∃ tree ∈ trees, tree.branch = branch := by
  obtain ⟨tree, hTree, hOrigin⟩ := h.complete hSelection hOpens hApplies
  obtain ⟨opener, hOpener, hOpened, _⟩ := h.opened hTree
  exact ⟨tree, hTree, hOpened.branch_eq hSetting hOpens hScope hScope (hNodes hOpener)
    (hNodes hSelection) hOrigin⟩

/-- The trees and the selection set itself hold exactly the field nodes that are reached. -/
theorem reaches_iff (hSetting : setting.Admissible) (h : setting.Grown type scope selections trees)
    (hScope : setting.Knows scope) (hNodes : selections ⊆ setting.document.nodes) :
    setting.Reaches type scope selections occurrence ↔
      (occurrence.type = scope ∧ occurrence.node.selection ∈ selections) ∨
        ∃ tree ∈ trees, tree.Holds occurrence := by
  constructor
  · intro hReaches
    induction hReaches generalizing trees with
    | field hMem => exact .inl ⟨rfl, hMem⟩
    | branch hMem hOpens hApplies _ ih =>
        obtain ⟨tree, hTree, hBranch⟩ := h.exists_tree hSetting hScope hNodes hMem hOpens hApplies
        subst hBranch
        have hHolds := ih (h.inner hTree) (hOpens.knows hSetting hScope)
          (hOpens.subset_nodes (hNodes hMem))
        exact .inr ⟨tree, hTree, FragmentTree.holds_iff.mpr hHolds⟩
  · rintro (⟨hType, hMem⟩ | ⟨tree, hTree, hHolds⟩)
    · obtain ⟨on, node⟩ := occurrence
      subst hType
      exact .field hMem
    · induction tree using FragmentTree.induct generalizing scope selections trees with
      | node tree ih =>
          obtain ⟨opener, hOpener, hOpens, hApplies⟩ := h.opened hTree
          refine .branch hOpener hOpens hApplies ?_
          rcases FragmentTree.holds_iff.mp hHolds with ⟨hType, hMem⟩ | ⟨child, hChild, hInner⟩
          · obtain ⟨on, node⟩ := occurrence
            subst hType
            exact .field hMem
          · exact ih child hChild (h.inner hTree) (hOpens.knows hSetting hScope)
              (hOpens.subset_nodes (hNodes hOpener)) hChild hInner

end Grown

end Setting

end ResponseModels
