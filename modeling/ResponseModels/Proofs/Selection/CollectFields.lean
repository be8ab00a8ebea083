import ResponseModels.Proofs.Document.Standing
import ResponseModels.Proofs.Selection.Collecting
import ResponseModels.Proofs.Selection.Nesting

/-! The specified collection of fields. It walks a selection set at an object type with one list of
the fragments visited, opens a fragment at its first spread only, and groups the field nodes it
meets by response key. -/
namespace ResponseModels

open GraphQL

namespace OrderedMap

variable {α : Type}

/-- Put items behind those under the key. -/
def append (groups : OrderedMap (List α)) (key : String) (items : List α) : OrderedMap (List α) :=
  groups.insert key ((groups.get? key).getD [] ++ items)

/-- Put each group of `more` behind the group of the same key, in the order of `more`. -/
def appendAll (groups more : OrderedMap (List α)) : OrderedMap (List α) :=
  more.entries.foldl (fun groups entry => groups.append entry.1 entry.2) groups

theorem keys_append (groups : OrderedMap (List α)) {before : List String}
    (h : groups.keys = before.eraseDups) (key : String) (items : List α) :
    (groups.append key items).keys = (before ++ [key]).eraseDups := by
  rw [append, keys_insert, h, Repeats.eraseDups_concat]

/-- The keys of the groups that come in follow those there were. -/
theorem keys_appendAll (groups more : OrderedMap (List α)) {before : List String}
    (h : groups.keys = before.eraseDups) :
    (groups.appendAll more).keys = (before ++ more.keys).eraseDups := by
  obtain ⟨entries⟩ := more
  unfold appendAll keys
  induction entries generalizing groups before with
  | nil =>
      rw [List.map_nil, List.append_nil]
      exact h
  | cons entry rest ih =>
      rw [List.foldl_cons, List.map_cons, List.append_cons]
      exact ih _ (keys_append groups h entry.1 entry.2)

theorem getD_append (groups : OrderedMap (List α)) (key other : String) (items : List α) :
    ((groups.append key items).get? other).getD [] =
      (groups.get? other).getD [] ++ if other = key then items else [] := by
  rw [append, get?_insert]
  by_cases h : other = key
  · simp [h]
  · simp [h]

/-- Under each key the items that come in follow those there were. -/
theorem getD_appendAll (groups more : OrderedMap (List α)) (hMore : more.keys.Nodup)
    (key : String) :
    ((groups.appendAll more).get? key).getD [] =
      (groups.get? key).getD [] ++ (more.get? key).getD [] := by
  obtain ⟨entries⟩ := more
  unfold appendAll
  induction entries generalizing groups with
  | nil => simp [get?]
  | cons entry rest ih =>
      obtain ⟨name, items⟩ := entry
      rw [keys, List.map_cons, List.nodup_cons] at hMore
      rw [List.foldl_cons, ih _ hMore.2, getD_append, get?_cons, List.append_assoc]
      by_cases h : key = name
      · have hAbsent : (⟨rest⟩ : OrderedMap (List α)).get? key = none := by
          rw [get?_eq_none_iff, h]
          exact hMore.1
        simp [h, h ▸ hAbsent]
      · simp [h]

end OrderedMap

/-- The groups hold the nodes by response key: the keys in the order in which they first occur,
and under each key its nodes in their order. -/
structure Grouped (groups : OrderedMap (List FieldNode)) (nodes : List FieldNode) : Prop where
  keys : groups.keys = (nodes.map FieldNode.responseKey).eraseDups
  group : ∀ key, (groups.get? key).getD [] = nodes.filter (·.responseKey == key)

namespace Grouped

variable {groups more : OrderedMap (List FieldNode)} {nodes others : List FieldNode}

theorem empty : Grouped .empty [] := ⟨rfl, fun _ => rfl⟩

theorem nodup (h : Grouped groups nodes) : groups.keys.Nodup := by
  rw [h.keys]
  exact Repeats.nodup_eraseDups _

/-- The group of a key that occurs. -/
theorem get?_eq (h : Grouped groups nodes) {key : String} (hKey : key ∈ groups.keys) :
    groups.get? key = some (nodes.filter (·.responseKey == key)) := by
  rw [← h.group key]
  cases hFound : groups.get? key with
  | none => exact absurd hKey ((groups.get?_eq_none_iff key).mp hFound)
  | some group => rfl

theorem concat (h : Grouped groups nodes) (node : FieldNode) :
    Grouped (groups.append node.responseKey [node]) (nodes ++ [node]) := by
  refine ⟨?_, fun key => ?_⟩
  · rw [List.map_append]
    exact groups.keys_append h.keys _ _
  · rw [OrderedMap.getD_append, h.group, List.filter_append]
    by_cases hKey : key = node.responseKey
    · simp [hKey]
    · simp [hKey, Ne.symm hKey]

/-- Groups of other nodes come in behind. -/
theorem appendAll (h : Grouped groups nodes) (hMore : Grouped more others) :
    Grouped (groups.appendAll more) (nodes ++ others) := by
  refine ⟨?_, fun key => ?_⟩
  · rw [groups.keys_appendAll more h.keys, hMore.keys, List.map_append]
    exact (Repeats.Alike.refl _).append (Repeats.alike_eraseDups _)
  · rw [groups.getD_appendAll more hMore.nodup, h.group, hMore.group, List.filter_append]

end Grouped

/-- Does a fragment on the named type apply to the object type? -/
def Schema.fragmentApplies (schema : Schema) (object : FieldedType) (condition : String) : Bool :=
  match schema.type? condition with
  | some (.object type) => type.name == object.name
  | some (.interface _) => schema.implements object condition
  | some (.union union) => union.members.keys.contains object.name
  | _ => false

/-- That is, does the type apply as a condition? -/
theorem Schema.WellFormed.fragmentApplies_eq {schema : Schema} (h : schema.WellFormed)
    {name : String} {condition : SchemaType} {object : FieldedType}
    (hCondition : schema.type? name = some condition)
    (hObject : schema.type? object.name = some (.object object)) :
    schema.fragmentApplies object name = schema.applies condition (.object object) := by
  have hName := h.name_of_type? hCondition
  subst hName
  by_cases hSame : condition.name = object.name
  · rw [hSame, hObject] at hCondition
    cases hCondition
    simp [applies, fragmentApplies, SchemaType.name, hObject]
  · have hLeft : (condition.name == object.name) = false := beq_eq_false_iff_ne.mpr hSame
    have hRight : (object.name == condition.name) = false :=
      beq_eq_false_iff_ne.mpr (Ne.symm hSame)
    unfold applies isPossibleTypeOf fragmentApplies
    change _ = (condition.name == object.name || (object.name == condition.name || _))
    rw [hCondition, hLeft, hRight, Bool.false_or, Bool.false_or]
    cases condition with
    | object => exact hLeft
    | _ => rfl

/-- The fragments of the document that are yet to be visited. -/
def Document.unvisited (document : Document) (visited : List String) : List String :=
  document.fragments.keys.filter (· ∉ visited)

theorem Document.length_unvisited_le {document : Document} {visited more : List String}
    (h : visited ⊆ more) :
    (document.unvisited more).length ≤ (document.unvisited visited).length := by
  refine (List.monotone_filter_right _ ?_).length_le
  intro name hName
  simp only [decide_eq_true_eq] at hName ⊢
  exact fun hVisited => hName (h hVisited)

theorem Document.length_unvisited_lt {document : Document} {visited : List String}
    {name : String} {fragment : Fragment} (hFragment : document.fragment? name = some fragment)
    (hNew : name ∉ visited) :
    (document.unvisited (name :: visited)).length < (document.unvisited visited).length := by
  refine Nat.lt_of_le_of_ne (length_unvisited_le (List.subset_cons_self _ _)) fun hSame => ?_
  have hSublist : (document.unvisited (name :: visited)).Sublist (document.unvisited visited) := by
    apply List.monotone_filter_right
    intro other hOther
    simp only [decide_eq_true_eq, List.mem_cons, not_or] at hOther ⊢
    exact hOther.2
  have hMem : name ∈ document.unvisited visited := by
    simpa [unvisited, hNew] using Cycle.mem_keys_of_get? hFragment
  rw [← hSublist.eq_of_length hSame] at hMem
  simp [unvisited] at hMem

/-- What a walk leaves behind that started with some fragments visited. -/
structure Walk (start : List String) where
  groups : OrderedMap (List FieldNode)
  visited : List String
  kept : start ⊆ visited

/-- The walk, seen from where fewer fragments were visited. -/
def Walk.widen {start fewer : List String} (h : fewer ⊆ start) (walk : Walk start) : Walk fewer :=
  ⟨walk.groups, walk.visited, List.Subset.trans h walk.kept⟩

namespace Setting

/-- Walk through selections at an object type, with the groups so far and the fragments visited.
A field goes into the group of its key. A fragment is visited once, wherever it is spread, and
passed by if there is none of the name or if it does not apply. What is collected from a fragment
is grouped by itself and then appended. -/
def collectFields (setting : Setting) (object : FieldedType)
    (groups : OrderedMap (List FieldNode)) (visited : List String) :
    List Selection → Walk visited
  | [] => ⟨groups, visited, List.Subset.refl _⟩
  | .field position label name selections :: rest =>
    let node : FieldNode := ⟨position, label, name, selections⟩
    setting.collectFields object (groups.append node.responseKey [node]) visited rest
  | .spread _ name :: rest =>
    if _known : name ∈ visited then setting.collectFields object groups visited rest
    else
      match _found : setting.document.fragment? name with
      | none =>
        (setting.collectFields object groups (name :: visited) rest).widen
          (List.subset_cons_self _ _)
      | some fragment =>
        if setting.schema.fragmentApplies object fragment.condition then
          let inner := setting.collectFields object .empty (name :: visited) fragment.selections
          (setting.collectFields object (groups.appendAll inner.groups) inner.visited rest).widen
            (List.Subset.trans (List.subset_cons_self _ _) inner.kept)
        else
          (setting.collectFields object groups (name :: visited) rest).widen
            (List.subset_cons_self _ _)
  | .inline _ condition selections :: rest =>
    if condition.all (setting.schema.fragmentApplies object) then
      let inner := setting.collectFields object .empty visited selections
      (setting.collectFields object (groups.appendAll inner.groups) inner.visited rest).widen
        inner.kept
    else setting.collectFields object groups visited rest
termination_by selections =>
  ((setting.document.unvisited visited).length, Selection.countAll selections)
decreasing_by
  -- A fragment that is opened is one fewer to visit; all else leaves fewer selections.
  · exact Prod.Lex.right _ (Selection.countAll_lt_cons _ _)
  · exact Prod.Lex.right _ (Selection.countAll_lt_cons _ _)
  · exact Prod.Lex.right' _ (Document.length_unvisited_le (List.subset_cons_self _ _))
      (Selection.countAll_lt_cons _ _)
  · exact Prod.Lex.left _ _ (Document.length_unvisited_lt _found _known)
  · exact Prod.Lex.right' _ (Document.length_unvisited_le
      (List.Subset.trans (List.subset_cons_self _ _) inner.kept)) (Selection.countAll_lt_cons _ _)
  · exact Prod.Lex.right' _ (Document.length_unvisited_le (List.subset_cons_self _ _))
      (Selection.countAll_lt_cons _ _)
  · exact Prod.Lex.right _ (Selection.countAll_inner_lt_cons (.inline _ _ selections) rest)
  · exact Prod.Lex.right' _ (Document.length_unvisited_le inner.kept)
      (Selection.countAll_lt_cons _ _)
  · exact Prod.Lex.right _ (Selection.countAll_lt_cons _ _)

variable {setting : Setting} {object : FieldedType} {groups : OrderedMap (List FieldNode)}
  {visited : List String} {position : Position} {name : String} {fragment : Fragment}
  {rest : List Selection}

/-- A fragment that applies is opened at its first spread. -/
theorem collectFields_taken (hNew : name ∉ visited)
    (hFragment : setting.document.fragment? name = some fragment)
    (hApplies : setting.schema.fragmentApplies object fragment.condition = true) :
    setting.collectFields object groups visited (.spread position name :: rest) =
      let inner := setting.collectFields object .empty (name :: visited) fragment.selections
      (setting.collectFields object (groups.appendAll inner.groups) inner.visited rest).widen
        (List.Subset.trans (List.subset_cons_self _ _) inner.kept) := by
  rw [collectFields, dif_neg hNew]
  split
  · rename_i hNone
    rw [hFragment] at hNone
    cases hNone
  · rename_i found hFound
    rw [hFragment] at hFound
    cases hFound
    rw [if_pos hApplies]

/-- A fragment that does not apply is passed by. -/
theorem collectFields_passed (hNew : name ∉ visited)
    (hFragment : setting.document.fragment? name = some fragment)
    (hNot : setting.schema.fragmentApplies object fragment.condition = false) :
    setting.collectFields object groups visited (.spread position name :: rest) =
      (setting.collectFields object groups (name :: visited) rest).widen
        (List.subset_cons_self _ _) := by
  rw [collectFields, dif_neg hNew]
  split
  · rfl
  · rename_i found hFound
    rw [hFragment] at hFound
    cases hFound
    rw [if_neg (by rw [hNot]; exact Bool.false_ne_true)]

variable {selections : List Selection} {middle after : List String}
  {own front back nodes others : List FieldNode}

/-- The field nodes are different from each other, and from those of all fragments that are yet to
be visited. -/
structure Apart (setting : Setting) (visited : List String) (own : List FieldNode) : Prop where
  nodup : own.Nodup
  disjoint : ∀ name fragment, name ∉ visited →
    setting.document.fragment? name = some fragment →
    own.Disjoint (Selection.ownFieldsOf fragment.selections)

namespace Apart

theorem left (h : setting.Apart visited (front ++ back)) : setting.Apart visited front := by
  refine ⟨(List.nodup_append.mp h.nodup).1, fun name fragment hNew hFragment node hNode => ?_⟩
  exact h.disjoint name fragment hNew hFragment (List.mem_append_left _ hNode)

theorem right (h : setting.Apart visited (front ++ back)) : setting.Apart visited back := by
  refine ⟨(List.nodup_append.mp h.nodup).2.1, fun name fragment hNew hFragment node hNode => ?_⟩
  exact h.disjoint name fragment hNew hFragment (List.mem_append_right _ hNode)

theorem mono (h : setting.Apart visited own) (hMore : visited ⊆ middle) :
    setting.Apart middle own :=
  ⟨h.nodup, fun name fragment hNew => h.disjoint name fragment fun hOld => hNew (hMore hOld)⟩

end Apart

/-- Different fragments have no field node in common. -/
theorem Admissible.disjoint_fragments (hSetting : setting.Admissible) {other : String}
    {found : Fragment} (hFragment : setting.document.fragment? name = some fragment)
    (hFound : setting.document.fragment? other = some found) (hDiffer : other ≠ name) :
    (Selection.ownFieldsOf fragment.selections).Disjoint
      (Selection.ownFieldsOf found.selections) := by
  have hMem := Document.mem_values_of_fragment? hFragment
  have hMem' := Document.mem_values_of_fragment? hFound
  apply hSetting.positions.disjoint_ownFields (Document.body_of_fragment hMem)
    (Document.body_of_fragment hMem')
  · intro hSame
    have hEqual := hSetting.positions.fragment_eq hMem hMem' hSame
    apply hDiffer
    rw [← hSetting.document.fragment?_name hFound, ← hEqual,
      hSetting.document.fragment?_name hFragment]
  · exact hSetting.positions.notInline_fragment hMem
  · exact hSetting.positions.notInline_fragment hMem'

theorem Admissible.apart_of_fragment (hSetting : setting.Admissible)
    (hFragment : setting.document.fragment? name = some fragment) :
    setting.Apart (name :: visited) (Selection.ownFieldsOf fragment.selections) := by
  constructor
  · exact hSetting.positions.nodup_ownFields
      (Document.body_of_fragment (Document.mem_values_of_fragment? hFragment))
  · intro other found hOther hFound
    apply hSetting.disjoint_fragments hFragment hFound
    rintro rfl
    exact hOther List.mem_cons_self

/-- What a walk meets that comes by some field nodes: each node once, and each is one of those or
stands in a fragment that has been visited in between. -/
structure MetOnce (setting : Setting) (own : List FieldNode) (visited after : List String)
    (nodes : List FieldNode) : Prop where
  nodup : nodes.Nodup
  stands : ∀ node ∈ nodes, node ∈ own ∨ ∃ name fragment, name ∉ visited ∧ name ∈ after ∧
    setting.document.fragment? name = some fragment ∧
    node ∈ Selection.ownFieldsOf fragment.selections

namespace MetOnce

theorem all (hNodup : nodes.Nodup) : setting.MetOnce nodes visited after nodes :=
  ⟨hNodup, fun _ hNode => .inl hNode⟩

/-- The walk, seen from where fewer fragments were visited. -/
theorem widen (h : setting.MetOnce own middle after nodes) (hMiddle : visited ⊆ middle) :
    setting.MetOnce own visited after nodes := by
  refine ⟨h.nodup, fun node hNode => ?_⟩
  rcases h.stands node hNode with hOwn | ⟨name, fragment, hNew, hRest⟩
  · exact .inl hOwn
  · exact .inr ⟨name, fragment, fun hOld => hNew (hMiddle hOld), hRest⟩

/-- The walk comes by no other node than those, or by more. -/
theorem pass (h : setting.MetOnce own visited after nodes) :
    setting.MetOnce (others ++ own) visited after nodes := by
  refine ⟨h.nodup, fun node hNode => ?_⟩
  rcases h.stands node hNode with hOwn | hNew
  · exact .inl (List.mem_append_right _ hOwn)
  · exact .inr hNew

/-- A fragment is new at its first spread. -/
theorem spread (hNew : name ∉ visited)
    (hFragment : setting.document.fragment? name = some fragment) (hAfter : name ∈ after)
    (h : setting.MetOnce (Selection.ownFieldsOf fragment.selections) (name :: visited) after
      nodes) : setting.MetOnce [] visited after nodes := by
  refine ⟨h.nodup, fun node hNode => ?_⟩
  rcases (h.widen (List.subset_cons_self _ _)).stands node hNode with hStands | hOther
  · exact .inr ⟨name, fragment, hNew, hAfter, hFragment, hStands⟩
  · exact .inr hOther

/-- One walk after the other. -/
theorem trans (hSetting : setting.Admissible) (hApart : setting.Apart visited (front ++ back))
    (hMiddle : visited ⊆ middle) (hAfter : middle ⊆ after)
    (hFront : setting.MetOnce front visited middle nodes)
    (hBack : setting.MetOnce back middle after others) :
    setting.MetOnce (front ++ back) visited after (nodes ++ others) := by
  constructor
  · refine List.nodup_append.mpr ⟨hFront.nodup, hBack.nodup, ?_⟩
    rintro node hNode _ hOther rfl
    rcases hFront.stands node hNode with hFirst | ⟨first, fragment, hNew, hMet, hFragment, hFirst⟩
    · rcases hBack.stands node hOther with hSecond | ⟨second, found, hNot, _, hFound, hSecond⟩
      · exact (List.nodup_append.mp hApart.nodup).2.2 node hFirst node hSecond rfl
      · exact hApart.left.disjoint second found (fun hOld => hNot (hMiddle hOld)) hFound hFirst
          hSecond
    · rcases hBack.stands node hOther with hSecond | ⟨second, found, hNot, _, hFound, hSecond⟩
      · exact hApart.right.disjoint first fragment hNew hFragment hSecond hFirst
      · refine hSetting.disjoint_fragments hFragment hFound ?_ hFirst hSecond
        rintro rfl
        exact hNot hMet
  · intro node hNode
    rcases List.mem_append.mp hNode with hNode | hNode
    · rcases hFront.stands node hNode with hOwn | ⟨first, fragment, hNew, hMet, hRest⟩
      · exact .inl (List.mem_append_left _ hOwn)
      · exact .inr ⟨first, fragment, hNew, hAfter hMet, hRest⟩
    · exact ((hBack.widen hMiddle).pass).stands node hNode

end MetOnce

/-- The specified walk groups nodes that it meets once each. -/
theorem collectFields_metOnce (hSetting : setting.Admissible)
    (hApart : setting.Apart visited (Selection.ownFieldsOf selections)) {listed : List FieldNode}
    (hGrouped : Grouped groups listed) :
    ∃ nodes, Grouped (setting.collectFields object groups visited selections).groups
        (listed ++ nodes) ∧
      setting.MetOnce (Selection.ownFieldsOf selections) visited
        (setting.collectFields object groups visited selections).visited nodes := by
  fun_induction collectFields setting object groups visited selections generalizing listed with
  | case1 groups visited => exact ⟨[], by rwa [List.append_nil], .all List.nodup_nil⟩
  | case2 groups visited position label name selections rest node ih =>
      obtain ⟨nodes, hGroups, hMet⟩ := ih hApart.right (hGrouped.concat node)
      refine ⟨[node] ++ nodes, by rwa [← List.append_assoc], ?_⟩
      exact .trans hSetting hApart (List.Subset.refl _) (Walk.kept _) (.all (List.nodup_singleton _)) hMet
  | case3 groups visited position name rest hKnown ih =>
      obtain ⟨nodes, hGroups, hMet⟩ := ih hApart.right hGrouped
      exact ⟨nodes, hGroups, hMet.pass⟩
  | case4 groups visited position name rest hNew hNone ih =>
      have hFewer : visited ⊆ name :: visited := List.subset_cons_self _ _
      obtain ⟨nodes, hGroups, hMet⟩ := ih (hApart.right.mono hFewer) hGrouped
      exact ⟨nodes, hGroups, (hMet.widen hFewer).pass⟩
  | case5 groups visited position name rest hNew fragment hFragment hApplies inner ihInner ih =>
      have hFewer := List.Subset.trans (List.subset_cons_self name visited) inner.kept
      obtain ⟨nodes, hInnerGroups, hInner⟩ :=
        ihInner (hSetting.apart_of_fragment hFragment) .empty
      obtain ⟨others, hGroups, hMet⟩ :=
        ih (hApart.right.mono hFewer) (hGrouped.appendAll hInnerGroups)
      refine ⟨nodes ++ others, by rwa [← List.append_assoc], ?_⟩
      exact .trans hSetting hApart hFewer (Walk.kept _)
        (hInner.spread hNew hFragment (inner.kept List.mem_cons_self)) hMet
  | case6 groups visited position name rest hNew fragment hFragment hNot ih =>
      have hFewer : visited ⊆ name :: visited := List.subset_cons_self _ _
      obtain ⟨nodes, hGroups, hMet⟩ := ih (hApart.right.mono hFewer) hGrouped
      exact ⟨nodes, hGroups, (hMet.widen hFewer).pass⟩
  | case7 groups visited position condition body rest hApplies inner ihInner ih =>
      obtain ⟨nodes, hInnerGroups, hInner⟩ := ihInner hApart.left .empty
      obtain ⟨others, hGroups, hMet⟩ :=
        ih (hApart.right.mono inner.kept) (hGrouped.appendAll hInnerGroups)
      refine ⟨nodes ++ others, by rwa [← List.append_assoc], ?_⟩
      exact .trans hSetting hApart inner.kept (Walk.kept _) hInner hMet
  | case8 groups visited position condition body rest hNot ih =>
      obtain ⟨nodes, hGroups, hMet⟩ := ih hApart.right hGrouped
      exact ⟨nodes, hGroups, hMet.pass⟩

/-- The groups that are specified for selections at an object type. -/
def fieldGroups (setting : Setting) (object : FieldedType) (selections : List Selection) :
    OrderedMap (List FieldNode) :=
  (setting.collectFields object .empty [] selections).groups

end Setting

/-- The selections are those of different operations and field nodes, one after the other. -/
def Document.Joined (document : Document) (selections : List Selection) : Prop :=
  ∃ bodies : List (Position × List Selection), bodies.Nodup ∧
    (∀ body ∈ bodies, document.Requestable body) ∧ selections = bodies.flatMap Prod.snd

/-- Joined selection sets have their field nodes for themselves. -/
theorem Setting.Admissible.apart_of_joined {setting : Setting} (hSetting : setting.Admissible)
    {selections : List Selection} (h : setting.document.Joined selections) :
    setting.Apart [] (Selection.ownFieldsOf selections) := by
  obtain ⟨bodies, hNodup, hBodies, rfl⟩ := h
  rw [Selection.ownFieldsOf_flatMap]
  constructor
  · rw [List.nodup_flatMap]
    constructor
    · intro body hBody
      exact hSetting.positions.nodup_ownFields (hBodies body hBody).mem_bodies
    · apply hNodup.pairwise_of_forall_ne
      intro body hBody other hOther hDiffer
      have hMem := (hBodies body hBody).mem_bodies
      have hMem' := (hBodies other hOther).mem_bodies
      apply hSetting.positions.disjoint_ownFields hMem hMem'
      · exact fun hSame =>
          hDiffer (List.inj_on_of_nodup_map hSetting.positions hMem hMem' hSame)
      · exact (hBodies body hBody).notInline hSetting.positions
      · exact (hBodies other hOther).notInline hSetting.positions
  · intro name fragment _ hFragment node hNode
    obtain ⟨body, hBody, hStands⟩ := List.mem_flatMap.mp hNode
    have hOwned := hBodies body hBody
    have hMem := Document.mem_values_of_fragment? hFragment
    exact hSetting.positions.disjoint_ownFields hOwned.mem_bodies (Document.body_of_fragment hMem)
      (hOwned.ne_fragment hSetting.positions hMem) (hOwned.notInline hSetting.positions)
      (hSetting.positions.notInline_fragment hMem) hStands

end ResponseModels
