import ResponseModels.Proofs.Coverage
import ResponseModels.Proofs.Selection.CollectFields

/-! Collecting at an object type against the specified collection. The fragments taken are known to
one selection set only, so a fragment that is spread in several places is opened again and again;
whatever is listed again was listed before, and the response keys and the nodes under each of them
come in the specified order. -/
namespace ResponseModels

open GraphQL

namespace Setting

variable {setting : Setting} {object : FieldedType} {type scope : SchemaType}
  {selections : List Selection} {seen all nodes : List FieldNode}
  {visited middle after : List String}

/-- All that the named fragment lists is among the nodes. -/
def Covers (setting : Setting) (type : SchemaType) (name : String) (nodes : List FieldNode) :
    Prop :=
  ∀ fragment condition inner, setting.document.fragment? name = some fragment →
    setting.schema.type? fragment.condition = some condition →
    setting.schema.applies condition type = true →
    setting.Lists type condition fragment.selections inner → inner ⊆ nodes

theorem Covers.mono {name : String} (h : setting.Covers type name nodes) {more : List FieldNode}
    (hMore : nodes ⊆ more) : setting.Covers type name more :=
  fun fragment condition inner hFragment hCondition hApplies hInner =>
    List.Subset.trans (h fragment condition inner hFragment hCondition hApplies hInner) hMore

/-- A fragment is covered by what it lists. -/
theorem Covers.of_lists {name : String} {fragment : Fragment} {condition : SchemaType}
    {inner : List FieldNode} (hFragment : setting.document.fragment? name = some fragment)
    (hCondition : setting.schema.type? fragment.condition = some condition)
    (hInner : setting.Lists type condition fragment.selections inner) (hNodes : inner ⊆ nodes) :
    setting.Covers type name nodes := by
  intro other condition' inner' hOther hCondition' _ hInner'
  rw [hFragment] at hOther
  cases hOther
  rw [hCondition] at hCondition'
  cases hCondition'
  rwa [hInner'.unique hInner]

/-- A fragment that does not apply is covered by anything. -/
theorem Covers.of_not_applies {name : String} {fragment : Fragment} {condition : SchemaType}
    (hFragment : setting.document.fragment? name = some fragment)
    (hCondition : setting.schema.type? fragment.condition = some condition)
    (hNot : setting.schema.applies condition type = false) : setting.Covers type name nodes := by
  intro other condition' inner hOther hCondition' hApplies
  rw [hFragment] at hOther
  cases hOther
  rw [hCondition] at hCondition'
  cases hCondition'
  rw [hNot] at hApplies
  cases hApplies

/-- An inline fragment is taken as it is specified to be; without a condition it applies as the
selection set does in which it is written. -/
theorem Opens.inline_applies (hSetting : setting.Admissible)
    (hObject : setting.schema.type? object.name = some (.object object))
    (hApplies : setting.schema.applies scope (.object object) = true) {position : Position}
    {written : Option String} {branch : Branch}
    (h : setting.Opens scope (.inline position written selections) branch) :
    written.all (setting.schema.fragmentApplies object) =
        setting.schema.applies branch.condition (.object object) ∧
      branch.selections = selections := by
  cases h with
  | inlineOn hCondition =>
      exact ⟨hSetting.schema.wellFormed.fragmentApplies_eq hCondition hObject, rfl⟩
  | inline => exact ⟨hApplies.symm, rfl⟩

/-- What a walk meets after some nodes were seen: new to those, all that is listed, and all that the
fragments list that it visits. -/
structure Walked (setting : Setting) (type : SchemaType) (seen all : List FieldNode)
    (visited after : List String) (nodes : List FieldNode) : Prop where
  alike : Repeats.Alike (seen ++ nodes) (seen ++ all)
  covered : ∀ name ∈ after, name ∈ visited ∨ setting.Covers type name (seen ++ nodes)

namespace Walked

theorem refl : setting.Walked type seen [] visited visited [] :=
  ⟨.refl _, fun _ hName => .inl hName⟩

/-- One walk after the other. -/
theorem trans {more others : List FieldNode}
    (first : setting.Walked type seen all visited middle nodes)
    (second : setting.Walked type (seen ++ nodes) more middle after others) :
    setting.Walked type seen (all ++ more) visited after (nodes ++ others) := by
  constructor
  · rw [← List.append_assoc, ← List.append_assoc]
    exact second.alike.trans (first.alike.append (.refl _))
  · intro name hName
    rw [← List.append_assoc]
    rcases second.covered name hName with hMiddle | hCovers
    · rcases first.covered name hMiddle with hVisited | hCovers
      · exact .inl hVisited
      · exact .inr (hCovers.mono (List.subset_append_left _ _))
    · exact .inr hCovers

/-- What was seen before is passed by. -/
theorem again {inner : List FieldNode} (hInner : inner ⊆ seen)
    (h : setting.Walked type seen all visited after nodes) :
    setting.Walked type seen (inner ++ all) visited after nodes := by
  refine ⟨h.alike.trans ?_, h.covered⟩
  rw [← List.append_assoc]
  exact (Repeats.Alike.append_of_subset hInner).symm.append (.refl _)

/-- Fragments that are ranked low enough stay covered. -/
theorem keeps (h : setting.Walked type seen all visited after nodes) {rank : String → Nat}
    {bound : Nat}
    (hVisited : ∀ name ∈ visited, rank name < bound → setting.Covers type name seen) :
    ∀ name ∈ after, rank name < bound → setting.Covers type name (seen ++ nodes) := by
  intro name hName hBelow
  rcases h.covered name hName with hBefore | hCovers
  · exact (hVisited name hBefore hBelow).mono (List.subset_append_left _ _)
  · exact hCovers

/-- A fragment has been visited when all that it lists was met. -/
theorem visit {name : String} (h : setting.Walked type seen all (name :: visited) after nodes)
    (hCovers : setting.Covers type name (seen ++ nodes)) :
    setting.Walked type seen all visited after nodes := by
  refine ⟨h.alike, fun other hOther => ?_⟩
  rcases h.covered other hOther with hKnown | hCovered
  · rcases List.mem_cons.mp hKnown with rfl | hVisited
    · exact .inr hCovers
    · exact .inl hVisited
  · exact .inr hCovered

end Walked

/-- The specified walk through the selections, when the fragments visited before list only what
was seen: it groups, behind what is grouped already, all that is listed and was not seen. -/
def Follows (setting : Setting) (object : FieldedType) (rank : String → Nat)
    (selections : List Selection) (all : List FieldNode) : Prop :=
  ∀ (bound : Nat) (groups : OrderedMap (List FieldNode)) (listed seen : List FieldNode)
    (visited : List String),
    setting.RankedBelow rank bound (Selection.spreadsAll selections) → Grouped groups listed →
    (∀ name ∈ visited, rank name < bound → setting.Covers (.object object) name seen) →
    ∃ nodes, Grouped (setting.collectFields object groups visited selections).groups
        (listed ++ nodes) ∧
      setting.Walked (.object object) seen all visited
        (setting.collectFields object groups visited selections).visited nodes

namespace Follows

variable {rank : String → Nat} {rest : List Selection} {inner : List FieldNode}

theorem nil : setting.Follows object rank [] [] := by
  intro bound groups listed seen visited _ hGrouped _
  rw [collectFields]
  exact ⟨[], by rwa [List.append_nil], .refl⟩

theorem field (h : setting.Follows object rank rest all) (node : FieldNode) :
    setting.Follows object rank (node.selection :: rest) (node :: all) := by
  intro bound groups listed seen visited hRank hGrouped hVisited
  unfold FieldNode.selection
  rw [collectFields]
  have hNode : setting.Walked (.object object) seen [node] visited visited [node] :=
    ⟨.refl _, fun _ hName => .inl hName⟩
  obtain ⟨nodes, hGroups, hWalked⟩ := h bound _ _ _ _
    (fun name hName => hRank name (List.mem_append_right _ hName)) (hGrouped.concat node)
    (hNode.keeps hVisited)
  exact ⟨[node] ++ nodes, by rwa [← List.append_assoc], hNode.trans hWalked⟩

/-- A spread of a fragment that applies. Inside the fragment only fragments of lower rank are
spread, so the walk does not come back to it while it is open. -/
theorem spread (hSetting : setting.Admissible)
    (hRanking : Cycle.Ranking setting.document.fragments rank)
    (hObject : setting.schema.type? object.name = some (.object object)) {position : Position}
    {name : String} {fragment : Fragment} {condition : SchemaType}
    (hFragment : setting.document.fragment? name = some fragment)
    (hCondition : setting.schema.type? fragment.condition = some condition)
    (hApplies : setting.schema.applies condition (.object object) = true)
    (hInner : setting.Lists (.object object) condition fragment.selections inner)
    (hOpened : setting.Follows object rank fragment.selections inner)
    (h : setting.Follows object rank rest all) :
    setting.Follows object rank (.spread position name :: rest) (inner ++ all) := by
  intro bound groups listed seen visited hRank hGrouped hVisited
  have hRankRest : setting.RankedBelow rank bound (Selection.spreadsAll rest) :=
    fun other hOther => hRank other (List.mem_append_right _ hOther)
  have hBelow := hRank name List.mem_cons_self (Cycle.mem_keys_of_get? hFragment)
  by_cases hName : name ∈ visited
  · rw [collectFields, dif_pos hName]
    obtain ⟨nodes, hGroups, hWalked⟩ := h bound _ _ _ _ hRankRest hGrouped hVisited
    have hOld := hVisited name hName hBelow fragment condition inner hFragment hCondition
      hApplies hInner
    exact ⟨nodes, hGroups, hWalked.again hOld⟩
  · rw [collectFields_taken hName hFragment
      ((hSetting.schema.wellFormed.fragmentApplies_eq hCondition hObject).trans hApplies)]
    have hInside : ∀ other ∈ name :: visited, rank other < rank name →
        setting.Covers (.object object) other seen := by
      intro other hOther hLower
      rcases List.mem_cons.mp hOther with rfl | hOther
      · exact absurd hLower (Nat.lt_irrefl _)
      · exact hVisited other hOther (Nat.lt_trans hLower hBelow)
    obtain ⟨nodes, hInnerGroups, hInnerWalk⟩ :=
      hOpened _ _ _ _ _ (hRanking.falls hFragment) .empty hInside
    have hFirst := hInnerWalk.visit (.of_lists hFragment hCondition hInner fun node hNode =>
      (hInnerWalk.alike.mem_iff node).mpr (List.mem_append_right _ hNode))
    obtain ⟨others, hGroups, hRest⟩ := h bound _ _ _ _ hRankRest
      (hGrouped.appendAll hInnerGroups) (hFirst.keeps hVisited)
    exact ⟨nodes ++ others, by rwa [← List.append_assoc], hFirst.trans hRest⟩

/-- A spread of a fragment that does not apply. -/
theorem spread_passed (hSetting : setting.Admissible)
    (hObject : setting.schema.type? object.name = some (.object object)) {position : Position}
    {name : String} {fragment : Fragment} {condition : SchemaType}
    (hFragment : setting.document.fragment? name = some fragment)
    (hCondition : setting.schema.type? fragment.condition = some condition)
    (hNot : setting.schema.applies condition (.object object) = false)
    (h : setting.Follows object rank rest all) :
    setting.Follows object rank (.spread position name :: rest) all := by
  intro bound groups listed seen visited hRank hGrouped hVisited
  have hRankRest : setting.RankedBelow rank bound (Selection.spreadsAll rest) :=
    fun other hOther => hRank other (List.mem_append_right _ hOther)
  by_cases hName : name ∈ visited
  · rw [collectFields, dif_pos hName]
    exact h bound _ _ _ _ hRankRest hGrouped hVisited
  · rw [collectFields_passed hName hFragment
      ((hSetting.schema.wellFormed.fragmentApplies_eq hCondition hObject).trans hNot)]
    have hAfter : ∀ other ∈ name :: visited, rank other < bound →
        setting.Covers (.object object) other seen := by
      intro other hOther hLower
      rcases List.mem_cons.mp hOther with rfl | hOther
      · exact .of_not_applies hFragment hCondition hNot
      · exact hVisited other hOther hLower
    obtain ⟨nodes, hGroups, hWalked⟩ := h bound _ _ _ _ hRankRest hGrouped hAfter
    exact ⟨nodes, hGroups, hWalked.visit (.of_not_applies hFragment hCondition hNot)⟩

theorem inline {position : Position} {written : Option String}
    (hWritten : written.all (setting.schema.fragmentApplies object) = true)
    (hOpened : setting.Follows object rank selections inner)
    (h : setting.Follows object rank rest all) :
    setting.Follows object rank (.inline position written selections :: rest)
      (inner ++ all) := by
  intro bound groups listed seen visited hRank hGrouped hVisited
  rw [collectFields, if_pos hWritten]
  obtain ⟨nodes, hInnerGroups, hFirst⟩ := hOpened bound _ _ _ _
    (fun name hName => hRank name (List.mem_append_left _ hName)) .empty hVisited
  obtain ⟨others, hGroups, hRest⟩ := h bound _ _ _ _
    (fun name hName => hRank name (List.mem_append_right _ hName))
    (hGrouped.appendAll hInnerGroups) (hFirst.keeps hVisited)
  exact ⟨nodes ++ others, by rwa [← List.append_assoc], hFirst.trans hRest⟩

theorem inline_passed {position : Position} {written : Option String}
    (hWritten : written.all (setting.schema.fragmentApplies object) = false)
    (h : setting.Follows object rank rest all) :
    setting.Follows object rank (.inline position written selections :: rest) all := by
  intro bound groups listed seen visited hRank hGrouped hVisited
  rw [collectFields, if_neg (by rw [hWritten]; exact Bool.false_ne_true)]
  exact h bound _ _ _ _ (fun name hName => hRank name (List.mem_append_right _ hName)) hGrouped
    hVisited

end Follows

/-- The specified walk meets what selections list. -/
theorem Lists.follows (hSetting : setting.Admissible) {rank : String → Nat}
    (hRanking : Cycle.Ranking setting.document.fragments rank)
    (hObject : setting.schema.type? object.name = some (.object object))
    (h : setting.Lists (.object object) scope selections all) (hScope : setting.Knows scope)
    (hApplies : setting.schema.applies scope (.object object) = true) :
    setting.Follows object rank selections all := by
  induction h with
  | nil => exact .nil
  | field _ ih => exact (ih hScope hApplies).field _
  | @take scope selection branch rest inner all hOpens hTaken hInner _ ihInner ih =>
      have hOpened := ihInner (hOpens.knows hSetting hScope) hTaken
      have hRest := ih hScope hApplies
      cases selection with
      | field => cases hOpens
      | spread position name =>
          obtain ⟨hFragment, hCondition⟩ := hOpens
          exact .spread hSetting hRanking hObject hFragment hCondition hTaken hInner hOpened hRest
      | inline position written body =>
          obtain ⟨hWritten, rfl⟩ := hOpens.inline_applies hSetting hObject hApplies
          exact .inline (hWritten.trans hTaken) hOpened hRest
  | @skip scope selection branch rest all hOpens hNot _ ih =>
      have hRest := ih hScope hApplies
      cases selection with
      | field => cases hOpens
      | spread position name =>
          obtain ⟨hFragment, hCondition⟩ := hOpens
          exact .spread_passed hSetting hObject hFragment hCondition hNot hRest
      | inline position written body =>
          obtain ⟨hWritten, _⟩ := hOpens.inline_applies hSetting hObject hApplies
          exact .inline_passed (hWritten.trans hNot) hRest

/-- The specified groups hold what selections list. -/
theorem Lists.fieldGroups (hSetting : setting.Admissible)
    (hObject : setting.schema.type? object.name = some (.object object))
    (h : setting.Lists (.object object) scope selections all) (hScope : setting.Knows scope)
    (hApplies : setting.schema.applies scope (.object object) = true) :
    ∃ nodes, Grouped (setting.fieldGroups object selections) nodes ∧
      Repeats.Alike nodes all := by
  obtain ⟨rank, hRanking⟩ := hSetting.document.exists_ranking
  obtain ⟨nodes, hGroups, hWalked⟩ := h.follows hSetting hRanking hObject hScope hApplies
    setting.document.fragments.size .empty [] [] [] (fun name _ hDefined =>
      hRanking.bounded name hDefined) .empty (fun _ hName => absurd hName List.not_mem_nil)
  exact ⟨nodes, hGroups, hWalked.alike⟩

/-- The specified groups of joined selection sets hold no node twice. -/
theorem nodup_of_joined (hSetting : setting.Admissible)
    (h : setting.document.Joined selections) {key : String}
    (hNodes : (setting.fieldGroups object selections).get? key = some nodes) : nodes.Nodup := by
  have hApart := hSetting.apart_of_joined h
  obtain ⟨met, hGroups, hMet⟩ := @collectFields_metOnce _ object _ _ _ hSetting hApart _ .empty
  have hGroup := hGroups.group key
  unfold fieldGroups at hNodes
  rw [hNodes, Option.getD_some, List.nil_append] at hGroup
  rw [hGroup]
  exact hMet.nodup.filter _

end Setting

/-- Collecting at an object type finds the specified groups of fields: the response keys in the
specified order, and under each of them, repeats aside, the specified nodes in their order. The
nodes are exactly the specified ones, repeats dropped, where each of the selection sets that are
collected together comes once. Each node goes with its location. -/
theorem collected_fields_grouped {setting : Setting} (hSetting : setting.Admissible)
    {object : FieldedType} (hObject : setting.schema.type? object.name = some (.object object))
    {scope : SchemaType} (hScope : setting.Knows scope)
    (hApplies : setting.schema.applies scope (.object object) = true)
    {selections : List Selection} (hNodes : selections ⊆ setting.document.nodes)
    {path : ModelPath} {collected : Collected}
    (h : setting.collectIn scope (.object object) selections path = .ok collected) :
    collected.fields.map MergedField.responseKey =
        (setting.fieldGroups object selections).keys ∧
      ∀ merged ∈ collected.fields,
        merged.locations = merged.nodes.map (setting.document.locate ·.position) ∧
        ∃ nodes, (setting.fieldGroups object selections).get? merged.responseKey = some nodes ∧
          merged.nodes.eraseDups = nodes.eraseDups ∧
          (setting.document.Joined selections → merged.nodes.eraseDups = nodes) := by
  obtain ⟨_, _, hGathering⟩ := Setting.gathering_of_collectIn hSetting hScope hNodes h
  obtain ⟨nodes, all, hMerge, hAll, hAlike⟩ := hGathering.listed
  obtain ⟨specified, hGroups, hSpecified⟩ :=
    hAll.fieldGroups hSetting hObject hScope hApplies
  have hSame := hAlike.trans hSpecified.symm
  have hKeys : collected.fields.map MergedField.responseKey =
      (setting.fieldGroups object selections).keys := by
    have hMerged := Setting.keys_mergeAll hMerge List.eraseDups_nil.symm
    rw [List.nil_append, List.map_map] at hMerged
    rw [hGroups.keys, hMerged]
    exact hSame.map FieldNode.responseKey
  refine ⟨hKeys, fun merged hMem => ?_⟩
  have hFrom := (Setting.merged_of_mergeAll hMerge).each merged hMem
  have hKey : merged.responseKey ∈ (setting.fieldGroups object selections).keys := by
    rw [← hKeys]
    exact List.mem_map_of_mem hMem
  have hOwn : merged.nodes.eraseDups =
      (specified.filter (·.responseKey == merged.responseKey)).eraseDups := by
    have hPicked := hSame.filter (·.responseKey == merged.responseKey)
    rw [hFrom.nodes, List.filter_map, List.map_map]
    exact (congrArg List.eraseDups (List.map_id _)).trans hPicked
  refine ⟨hFrom.locations, _, hGroups.get?_eq hKey, hOwn, fun hJoined => ?_⟩
  rw [hOwn]
  exact Repeats.eraseDups_of_nodup
    (Setting.nodup_of_joined hSetting hJoined (hGroups.get?_eq hKey))

/-- The title of every hit, and for a book the title once more and the pages. -/
def titleTwice : List Selection :=
  [.spread ⟨2, 1⟩ "Heading", .inline ⟨3, 1⟩ (some "Book")
    [.spread ⟨3, 9⟩ "Heading", .field ⟨3, 19⟩ none "pages" []]]

def titleTwiceTask : Task :=
  (Task.ofItems? hitTypes (hitItems titleTwice)).get (by decide +kernel)

/-- The title of a book is merged from one node that was met twice; it is specified to be met
once. -/
theorem book_title_grouped_once :
    ∃ scope object collected, titleTwiceTask.schema.type? "Hit" = some scope ∧
      titleTwiceTask.schema.type? "Book" = some (.object object) ∧
      titleTwiceTask.collectIn scope (.object object) titleTwice (.root "Query") =
        .ok collected ∧
      (collected.fields.map fun merged => (merged.responseKey, merged.nodes.length)) =
        [("title", 2), ("pages", 1)] ∧
      (titleTwiceTask.fieldGroups object titleTwice).keys = ["title", "pages"] ∧
      (titleTwiceTask.fieldGroups object titleTwice).get? "title" =
        some [⟨⟨9, 9⟩, none, "title", []⟩] := by
  have hStart : Startable titleTwiceTask (.initial 9) titleTwiceTask.document.operations :=
    .ofItems (Option.some_get _).symm (by decide +kernel) 9
  have hRun : ((titleTwiceTask.schema.type? "Hit").bind fun scope =>
      (titleTwiceTask.schema.object? "Book").bind fun object =>
        (titleTwiceTask.collectIn scope (.object object) titleTwice
          (.root "Query")).toOption.map fun collected =>
            (titleTwiceTask.schema.applies scope (.object object),
              collected.fields.map fun merged => (merged.responseKey, merged.nodes))) =
      some (true, [("title", [⟨⟨9, 9⟩, none, "title", []⟩, ⟨⟨9, 9⟩, none, "title", []⟩]),
        ("pages", [⟨⟨3, 19⟩, none, "pages", []⟩])]) := by
    decide +kernel
  obtain ⟨scope, hScope, hRun⟩ := Option.bind_eq_some_iff.mp hRun
  obtain ⟨object, hObject, hRun⟩ := Option.bind_eq_some_iff.mp hRun
  obtain ⟨collected, hCollected, hRun⟩ := Option.map_eq_some_iff.mp hRun
  rw [Outcome.toOption_eq_some_iff] at hCollected
  obtain ⟨hApplies, hFields⟩ := Prod.mk.inj hRun
  obtain ⟨hName, hType⟩ := hStart.setting.schema.wellFormed.type?_of_object? hObject
  have hFound : (⟨⟨1, 3⟩, none, "found", titleTwice⟩ : FieldNode).selection ∈
      titleTwiceTask.document.nodes := by decide +kernel
  have hInside : titleTwice ⊆ titleTwiceTask.document.nodes :=
    fun _ hMem => Document.mem_nodes_of_body (Document.body_of_node hFound) hMem
  have hJoined : titleTwiceTask.document.Joined titleTwice :=
    ⟨[(⟨1, 3⟩, titleTwice)], List.nodup_singleton _,
      fun body hBody => List.mem_singleton.mp hBody ▸ .field hFound, by simp⟩
  obtain ⟨hKeys, hGroups⟩ := collected_fields_grouped hStart.setting hType
    (hStart.setting.knows_of_type? hScope) hApplies hInside hCollected
  have hTitle : ("title", [⟨⟨9, 9⟩, none, "title", []⟩, ⟨⟨9, 9⟩, none, "title", []⟩]) ∈
      collected.fields.map fun merged => (merged.responseKey, merged.nodes) := by
    rw [hFields]
    exact List.mem_cons_self
  obtain ⟨merged, hMerged, hPair⟩ := List.mem_map.mp hTitle
  obtain ⟨hKey, hNodes⟩ := Prod.mk.inj hPair
  obtain ⟨_, nodes, hGroup, _, hExactly⟩ := hGroups merged hMerged
  rw [hKey] at hGroup
  refine ⟨scope, object, collected, hScope, hName ▸ hType, hCollected, ?_, ?_, ?_⟩
  · have hLengths := congrArg (List.map fun pair => (pair.1, pair.2.length)) hFields
    rw [List.map_map] at hLengths
    exact hLengths
  · have hFirsts := congrArg (List.map Prod.fst) hFields
    rw [List.map_map] at hFirsts
    exact hKeys.symm.trans hFirsts
  · rw [hGroup, ← hExactly hJoined, hNodes]
    decide +kernel

/-- The field node for the artist of an album. -/
def artistNode : FieldNode := ⟨⟨1, 112⟩, none, "artist", [.field ⟨1, 121⟩ none "name" []]⟩

/-- An album's selection set, with the artist in an inline fragment. -/
def sleeve : List Selection := [.inline ⟨1, 110⟩ none [artistNode.selection]]

/-- The fragment with the album is reached from the query and once more through a fragment. -/
def sleeveTask : Task :=
  (Task.ofItems?
    [.define ⟨⟨1, 1⟩, none, "Query", .object [] [⟨⟨1, 14⟩, none, "album", .named "Album"⟩]⟩,
      .define ⟨⟨1, 29⟩, none, "Album", .object [] [⟨⟨1, 42⟩, none, "artist", .named "Artist"⟩]⟩,
      .define ⟨⟨1, 59⟩, none, "Artist", .object [] [⟨⟨1, 73⟩, none, "name", .named "String"⟩]⟩]
    [.operation ⟨.query, some "Shelf", ⟨1, 1⟩, [],
        [.spread ⟨1, 18⟩ "Cover", .spread ⟨1, 27⟩ "Title"]⟩,
      .fragment ⟨"Cover", "Query", ⟨1, 35⟩, [.spread ⟨1, 64⟩ "Title"]⟩,
      .fragment ⟨"Title", "Query", ⟨1, 72⟩, [.field ⟨1, 98⟩ none "album" sleeve]⟩]).get
    (by decide +kernel)

theorem fieldGroups_sleeve (setting : Setting) (object : FieldedType) :
    setting.fieldGroups object (sleeve ++ sleeve) = ⟨[("artist", [artistNode, artistNode])]⟩ := by
  simp only [Setting.fieldGroups, sleeve, artistNode, FieldNode.selection, List.cons_append,
    List.nil_append, Setting.collectFields, Option.all_none, if_true, Walk.widen]
  rfl

/-- What is inside the album of the query is collected twice over, as the album is merged from one
node that was met twice. The artist is then merged from one node, and specified to come twice. -/
theorem artist_of_repeated_sleeve :
    ∃ root object whole collected merged, sleeveTask.toSetting.Admissible ∧
      sleeveTask.schema.type? "Query" = some (.object root) ∧
      sleeveTask.collectIn (.object root) (.object root)
        (sleeveTask.document.operations.flatMap Operation.selections) (.root "Shelf") =
          .ok whole ∧
      whole.fields.map MergedField.nested = [sleeve ++ sleeve] ∧
      sleeve ++ sleeve ⊆ sleeveTask.document.nodes ∧
      sleeveTask.schema.type? "Album" = some (.object object) ∧
      sleeveTask.schema.applies (.object object) (.object object) = true ∧
      sleeveTask.collectIn (.object object) (.object object) (sleeve ++ sleeve)
        ((ModelPath.root "Shelf").child "album") = .ok collected ∧
      merged ∈ collected.fields ∧ merged.responseKey = "artist" ∧ merged.nodes = [artistNode] ∧
      (sleeveTask.fieldGroups object (sleeve ++ sleeve)).get? "artist" =
        some [artistNode, artistNode] ∧
      merged.nodes.eraseDups ≠ [artistNode, artistNode] := by
  have hStart : Startable sleeveTask (.initial 9) sleeveTask.document.operations :=
    .ofItems (Option.some_get _).symm (by decide +kernel) 9
  have hRun : ((sleeveTask.schema.object? "Query").bind fun root =>
      (sleeveTask.schema.object? "Album").bind fun object =>
        (sleeveTask.collectIn (.object root) (.object root)
            (sleeveTask.document.operations.flatMap Operation.selections)
            (.root "Shelf")).toOption.bind fun whole =>
          (sleeveTask.collectIn (.object object) (.object object) (sleeve ++ sleeve)
              ((ModelPath.root "Shelf").child "album")).toOption.map fun collected =>
            (whole.fields.map MergedField.nested,
              sleeveTask.schema.applies (.object object) (.object object),
              collected.fields.map fun merged => (merged.responseKey, merged.nodes))) =
      some ([sleeve ++ sleeve], true, [("artist", [artistNode])]) := by
    decide +kernel
  obtain ⟨root, hRoot, hRun⟩ := Option.bind_eq_some_iff.mp hRun
  obtain ⟨object, hObject, hRun⟩ := Option.bind_eq_some_iff.mp hRun
  obtain ⟨whole, hWhole, hRun⟩ := Option.bind_eq_some_iff.mp hRun
  obtain ⟨collected, hCollected, hRun⟩ := Option.map_eq_some_iff.mp hRun
  rw [Outcome.toOption_eq_some_iff] at hWhole hCollected
  obtain ⟨hNested, hRun⟩ := Prod.mk.inj hRun
  obtain ⟨hApplies, hFields⟩ := Prod.mk.inj hRun
  obtain ⟨hRootName, hRootType⟩ := hStart.setting.schema.wellFormed.type?_of_object? hRoot
  obtain ⟨hName, hType⟩ := hStart.setting.schema.wellFormed.type?_of_object? hObject
  obtain ⟨merged, hMerged, hPair⟩ := List.mem_map.mp (hFields ▸ List.mem_singleton.mpr rfl)
  obtain ⟨hKey, hNodes⟩ := Prod.mk.inj hPair
  refine ⟨root, object, whole, collected, merged, hStart.setting, hRootName ▸ hRootType, hWhole,
    hNested, by decide +kernel, hName ▸ hType, hApplies, hCollected, hMerged, hKey, hNodes, ?_, ?_⟩
  · rw [fieldGroups_sleeve]
    rfl
  · rw [hNodes]
    decide +kernel

end ResponseModels
