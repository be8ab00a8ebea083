import ResponseModels.Selection.Collect
import ResponseModels.Proofs.Data.Outcome
import ResponseModels.Proofs.Data.Repeats

/-! Merging field nodes by response key. A node is met on some type; the fields merged from a
list of such occurrences are told by the list alone: one field for each response key, with all
nodes of that key in their order, and with the schema's field that the first of them selects. -/
namespace ResponseModels

open GraphQL

/-- A field node as it is met on a type. -/
structure Occurrence where
  type : SchemaType
  node : FieldNode

namespace Occurrence

def key (occurrence : Occurrence) : String := occurrence.node.responseKey

/-- The field of the schema that the node selects there. -/
def field? (occurrence : Occurrence) : Option Field :=
  occurrence.type.selectable? occurrence.node.name

/-- The name of the type under all lists of the selected field's type. -/
def innermost? (occurrence : Occurrence) : Option String :=
  occurrence.field?.map fun field => field.annotation.innermost.name

end Occurrence

/-- The same field, merged in a selection set elsewhere. -/
def MergedField.movedTo (path : ModelPath) (merged : MergedField) : MergedField :=
  { merged with path := path.child merged.responseKey }

namespace Setting

variable {setting : Setting} {path : ModelPath}

/-- Merge occurrences one after the other. -/
def mergeAll (setting : Setting) (path : ModelPath) (fields : List MergedField)
    (occurrences : List Occurrence) : Except ModelError (List MergedField) :=
  occurrences.foldlM (fun fields occurrence =>
    setting.mergeField occurrence.type path fields occurrence.node) fields

theorem mergeAll_append (fields : List MergedField) (front back : List Occurrence) :
    setting.mergeAll path fields (front ++ back) =
      setting.mergeAll path fields front >>= fun middle => setting.mergeAll path middle back := by
  simp only [mergeAll, List.foldlM_append]

theorem mergeAll_cons (fields : List MergedField) (first : Occurrence)
    (rest : List Occurrence) : setting.mergeAll path fields (first :: rest) =
      setting.mergeField first.type path fields first.node >>= fun middle =>
        setting.mergeAll path middle rest := by
  simp only [mergeAll, List.foldlM_cons]

/-- Merging in two goes. -/
theorem mergeAll_trans {fields middle finish : List MergedField} {front back : List Occurrence}
    (hFront : setting.mergeAll path fields front = .ok middle)
    (hBack : setting.mergeAll path middle back = .ok finish) :
    setting.mergeAll path fields (front ++ back) = .ok finish := by
  rw [mergeAll_append, hFront]
  exact hBack

/-- The field that is merged from the occurrences of its response key. -/
structure MergedFrom (setting : Setting) (path : ModelPath) (occurrences : List Occurrence)
    (merged : MergedField) : Prop where
  nodes : merged.nodes =
    (occurrences.filter (·.key == merged.responseKey)).map Occurrence.node
  locations : merged.locations = merged.nodes.map (setting.document.locate ·.position)
  path : merged.path = path.child merged.responseKey
  first : ∃ first, occurrences.find? (·.key == merged.responseKey) = some first ∧
    first.field? = some merged.field

/-- The fields that are merged from occurrences. -/
structure Merged (setting : Setting) (path : ModelPath) (occurrences : List Occurrence)
    (fields : List MergedField) : Prop where
  nodup : (fields.map MergedField.responseKey).Nodup
  selected : ∀ occurrence ∈ occurrences, ∃ field, occurrence.field? = some field
  covered : ∀ occurrence ∈ occurrences, ∃ merged ∈ fields, merged.responseKey = occurrence.key
  each : ∀ merged ∈ fields, MergedFrom setting path occurrences merged

theorem Merged.nil : Merged setting path [] [] :=
  ⟨List.nodup_nil, by simp, by simp, by simp⟩

/-- What `mergeField` does: it appends the node to the field of its key, or a field of its own. -/
theorem mergeField_eq_ok {type : SchemaType} {node : FieldNode} {fields next : List MergedField}
    (h : setting.mergeField type path fields node = .ok next) :
    ∃ field, type.selectable? node.name = some field ∧
      (((∃ merged ∈ fields, merged.responseKey = node.responseKey) ∧
          next = fields.map fun merged =>
            if merged.responseKey = node.responseKey then
              { merged with
                nodes := merged.nodes ++ [node]
                locations := merged.locations ++ [setting.document.locate node.position] }
            else merged) ∨
        ((∀ merged ∈ fields, merged.responseKey ≠ node.responseKey) ∧
          next = fields ++ [⟨field, [setting.document.locate node.position], [node],
            path.child node.responseKey, node.responseKey⟩])) := by
  unfold mergeField at h
  split at h
  · cases h
  · rename_i field hField
    refine ⟨field, hField, ?_⟩
    dsimp only at h
    split at h
    · rename_i hKnown
      cases h
      exact .inl ⟨by simpa using hKnown, rfl⟩
    · rename_i hNew
      cases h
      exact .inr ⟨by simpa using hNew, rfl⟩

/-- Nodes are merged elsewhere just as they are merged here. -/
theorem mergeField_movedTo {type : SchemaType} {node : FieldNode} {fields next : List MergedField}
    (h : setting.mergeField type path fields node = .ok next) (elsewhere : ModelPath) :
    setting.mergeField type elsewhere (fields.map (.movedTo elsewhere)) node =
      .ok (next.map (.movedTo elsewhere)) := by
  obtain ⟨field, hField, ⟨hKnown, rfl⟩ | ⟨hNew, rfl⟩⟩ := mergeField_eq_ok h
  · have hAny : (fields.map (MergedField.movedTo elsewhere)).any
        (·.responseKey == node.responseKey) = true := by
      simpa [MergedField.movedTo] using hKnown
    simp only [mergeField, hField, hAny, if_true, List.map_map]
    refine congrArg Except.ok (List.map_congr_left fun merged _ => ?_)
    by_cases hSame : merged.responseKey = node.responseKey <;>
      simp [MergedField.movedTo, hSame]
  · have hAny : (fields.map (MergedField.movedTo elsewhere)).any
        (·.responseKey == node.responseKey) = false := by
      simpa [MergedField.movedTo] using hNew
    simp only [mergeField, hField, hAny, List.map_append, List.map_singleton]
    rfl

theorem mergeAll_movedTo {fields finish : List MergedField} {occurrences : List Occurrence}
    (h : setting.mergeAll path fields occurrences = .ok finish) (elsewhere : ModelPath) :
    setting.mergeAll elsewhere (fields.map (.movedTo elsewhere)) occurrences =
      .ok (finish.map (.movedTo elsewhere)) := by
  induction occurrences generalizing fields with
  | nil =>
      cases h
      rfl
  | cons occurrence rest ih =>
      rw [mergeAll_cons, Outcome.bind_eq_ok_iff] at h
      obtain ⟨middle, hStep, hRest⟩ := h
      rw [mergeAll_cons, mergeField_movedTo hStep]
      exact ih hRest

/-- Merging leaves the response keys as they are, but for a new key that comes last. -/
theorem keys_mergeField {type : SchemaType} {node : FieldNode} {fields next : List MergedField}
    (h : setting.mergeField type path fields node = .ok next) :
    next.map MergedField.responseKey =
      if node.responseKey ∈ fields.map MergedField.responseKey
      then fields.map MergedField.responseKey
      else fields.map MergedField.responseKey ++ [node.responseKey] := by
  obtain ⟨_, _, ⟨⟨known, hKnown, hKey⟩, rfl⟩ | ⟨hNew, rfl⟩⟩ := mergeField_eq_ok h
  · rw [if_pos (List.mem_map.mpr ⟨known, hKnown, hKey⟩), List.map_map]
    apply List.map_congr_left
    intro merged _
    by_cases hSame : merged.responseKey = node.responseKey <;> simp [hSame]
  · rw [if_neg (by simpa using hNew), List.map_append]
    rfl

/-- The response keys of merged fields stand in the order in which they first occur. -/
theorem keys_mergeAll {fields finish : List MergedField} {occurrences : List Occurrence}
    (h : setting.mergeAll path fields occurrences = .ok finish) {before : List String}
    (hBefore : fields.map MergedField.responseKey = before.eraseDups) :
    finish.map MergedField.responseKey =
      (before ++ occurrences.map Occurrence.key).eraseDups := by
  induction occurrences generalizing fields before with
  | nil =>
      cases h
      rw [hBefore, List.map_nil, List.append_nil]
  | cons occurrence rest ih =>
      rw [mergeAll_cons, Outcome.bind_eq_ok_iff] at h
      obtain ⟨middle, hStep, hRest⟩ := h
      rw [List.map_cons, List.append_cons]
      apply ih hRest
      rw [keys_mergeField hStep, hBefore, Repeats.eraseDups_concat]
      rfl

/-- One more occurrence of a key that is there already. -/
theorem MergedFrom.again {occurrences : List Occurrence} {occurrence : Occurrence}
    {merged : MergedField} (h : MergedFrom setting path occurrences merged)
    (hKey : merged.responseKey = occurrence.key) :
    MergedFrom setting path (occurrences ++ [occurrence])
      { merged with
        nodes := merged.nodes ++ [occurrence.node]
        locations := merged.locations ++ [setting.document.locate occurrence.node.position] } := by
  obtain ⟨first, hFirst, hField⟩ := h.first
  refine ⟨?_, ?_, h.path, first, ?_, hField⟩
  · simp [h.nodes, List.filter_append, hKey]
  · simp [h.locations]
  · rw [List.find?_append, hFirst, Option.some_or]

/-- An occurrence of another key changes nothing. -/
theorem MergedFrom.other {occurrences : List Occurrence} {occurrence : Occurrence}
    {merged : MergedField} (h : MergedFrom setting path occurrences merged)
    (hKey : merged.responseKey ≠ occurrence.key) :
    MergedFrom setting path (occurrences ++ [occurrence]) merged := by
  obtain ⟨first, hFirst, hField⟩ := h.first
  refine ⟨?_, h.locations, h.path, first, ?_, hField⟩
  · simp [h.nodes, List.filter_append, hKey.symm]
  · rw [List.find?_append, hFirst, Option.some_or]

/-- The first occurrence of its key. -/
theorem MergedFrom.fresh {occurrences : List Occurrence} {occurrence : Occurrence} {field : Field}
    (hField : occurrence.field? = some field)
    (hNew : ∀ other ∈ occurrences, other.key ≠ occurrence.key) :
    MergedFrom setting path (occurrences ++ [occurrence])
      ⟨field, [setting.document.locate occurrence.node.position], [occurrence.node],
        path.child occurrence.key, occurrence.key⟩ := by
  have hNone : occurrences.filter (·.key == occurrence.key) = [] := by simpa using hNew
  have hFind : occurrences.find? (·.key == occurrence.key) = none := by simpa using hNew
  refine ⟨?_, rfl, rfl, occurrence, ?_, hField⟩
  · simp [List.filter_append, hNone]
  · simp [List.find?_append, hFind]

/-- The schema's field is told by the nodes among occurrences that stand in a row. -/
theorem MergedFrom.field_eq_of_infix {occurrences inner : List Occurrence} {elsewhere : ModelPath}
    {merged other : MergedField} (h : MergedFrom setting path occurrences merged)
    (hOther : MergedFrom setting elsewhere inner other) (hInfix : inner <:+: occurrences)
    (hKey : other.responseKey = merged.responseKey)
    (hLength : other.nodes.length = merged.nodes.length) : other.field = merged.field := by
  obtain ⟨first, hFirst, hField⟩ := h.first
  obtain ⟨first', hFirst', hField'⟩ := hOther.first
  have hSame : inner.filter (·.key == merged.responseKey) =
      occurrences.filter (·.key == merged.responseKey) := by
    refine (hInfix.filter _).eq_of_length ?_
    rw [h.nodes, hOther.nodes, hKey, List.length_map, List.length_map] at hLength
    exact hLength
  rw [hKey, ← List.head?_filter, hSame, List.head?_filter, hFirst] at hFirst'
  cases hFirst'
  exact Option.some.inj (hField'.symm.trans hField)

theorem Merged.step {occurrences : List Occurrence} {fields next : List MergedField}
    {occurrence : Occurrence} (h : Merged setting path occurrences fields)
    (hStep : setting.mergeField occurrence.type path fields occurrence.node = .ok next) :
    Merged setting path (occurrences ++ [occurrence]) next := by
  obtain ⟨field, hField, hNext⟩ := mergeField_eq_ok hStep
  have hSelected : ∀ other ∈ occurrences ++ [occurrence], ∃ field, other.field? = some field := by
    intro other hOther
    rcases List.mem_append.mp hOther with hOther | hOther
    · exact h.selected other hOther
    · rw [List.mem_singleton.mp hOther]
      exact ⟨field, hField⟩
  rcases hNext with ⟨⟨known, hKnown, hKey⟩, rfl⟩ | ⟨hNew, rfl⟩
  · have hKeys := keys_mergeField hStep
    rw [if_pos (List.mem_map.mpr ⟨known, hKnown, hKey⟩)] at hKeys
    refine ⟨hKeys ▸ h.nodup, hSelected, ?_, ?_⟩
    · intro other hOther
      have hMem : other.key ∈ fields.map MergedField.responseKey := by
        rcases List.mem_append.mp hOther with hOther | hOther
        · obtain ⟨merged, hMerged, hSame⟩ := h.covered other hOther
          exact List.mem_map.mpr ⟨merged, hMerged, hSame⟩
        · rw [List.mem_singleton.mp hOther]
          exact List.mem_map.mpr ⟨known, hKnown, hKey⟩
      rw [← hKeys] at hMem
      exact List.mem_map.mp hMem
    · intro merged hMerged
      obtain ⟨before, hBefore, rfl⟩ := List.mem_map.mp hMerged
      split
      · rename_i hSame
        exact (h.each before hBefore).again hSame
      · rename_i hDiffer
        exact (h.each before hBefore).other hDiffer
  · refine ⟨?_, hSelected, ?_, ?_⟩
    · rw [List.map_append, List.nodup_append]
      refine ⟨h.nodup, by simp, ?_⟩
      rintro _ hOld _ hLast rfl
      obtain ⟨merged, hMerged, hSame⟩ := List.mem_map.mp hOld
      simp only [List.map_cons, List.map_nil, List.mem_singleton] at hLast
      exact hNew merged hMerged (hSame.trans hLast)
    · intro other hOther
      rcases List.mem_append.mp hOther with hOther | hOther
      · obtain ⟨merged, hMerged, hSame⟩ := h.covered other hOther
        exact ⟨merged, List.mem_append_left _ hMerged, hSame⟩
      · rw [List.mem_singleton.mp hOther]
        exact ⟨_, List.mem_append_right _ (List.mem_singleton.mpr rfl), rfl⟩
    · intro merged hMerged
      rcases List.mem_append.mp hMerged with hMerged | hMerged
      · exact (h.each merged hMerged).other (hNew merged hMerged)
      · rw [List.mem_singleton.mp hMerged]
        refine MergedFrom.fresh hField ?_
        intro other hOther hSame
        obtain ⟨merged, hMerged, hKey⟩ := h.covered other hOther
        exact hNew merged hMerged (hKey.trans hSame)

theorem Merged.mergeAll {front back : List Occurrence} {fields finish : List MergedField}
    (h : Merged setting path front fields)
    (hMerge : setting.mergeAll path fields back = .ok finish) :
    Merged setting path (front ++ back) finish := by
  induction back generalizing front fields with
  | nil =>
      cases hMerge
      rwa [List.append_nil]
  | cons occurrence rest ih =>
      rw [mergeAll_cons, Outcome.bind_eq_ok_iff] at hMerge
      obtain ⟨middle, hStep, hRest⟩ := hMerge
      rw [List.append_cons]
      exact ih (h.step hStep) hRest

/-- The fields merged from nothing by a list of occurrences. -/
theorem merged_of_mergeAll {occurrences : List Occurrence} {fields : List MergedField}
    (h : setting.mergeAll path [] occurrences = .ok fields) :
    Merged setting path occurrences fields :=
  Merged.nil.mergeAll h

variable {occurrences : List Occurrence} {fields : List MergedField} {merged : MergedField}

theorem MergedFrom.mem_nodes_iff (h : MergedFrom setting path occurrences merged)
    (node : FieldNode) : node ∈ merged.nodes ↔
      ∃ occurrence ∈ occurrences, occurrence.key = merged.responseKey ∧
        occurrence.node = node := by
  rw [h.nodes]
  simp [List.mem_map, and_assoc]

/-- The first of the merged nodes tells the field. -/
theorem MergedFrom.head_node (h : MergedFrom setting path occurrences merged) :
    ∃ first ∈ occurrences, first.key = merged.responseKey ∧ first.field? = some merged.field ∧
      merged.nodes.head? = some first.node := by
  obtain ⟨first, hFirst, hField⟩ := h.first
  have hKey : first.key = merged.responseKey := by simpa using List.find?_some hFirst
  refine ⟨first, List.mem_of_find?_eq_some hFirst, hKey, hField, ?_⟩
  rw [h.nodes, List.head?_map, List.head?_filter, hFirst, Option.map_some]

/-- A response key is merged exactly if it occurs. -/
theorem Merged.mem_keys_iff (h : Merged setting path occurrences fields) (key : String) :
    key ∈ fields.map MergedField.responseKey ↔
      ∃ occurrence ∈ occurrences, occurrence.key = key := by
  constructor
  · intro hKey
    obtain ⟨merged, hMerged, rfl⟩ := List.mem_map.mp hKey
    obtain ⟨first, hFirst, hSame, _⟩ := (h.each merged hMerged).head_node
    exact ⟨first, hFirst, hSame⟩
  · rintro ⟨occurrence, hOccurrence, rfl⟩
    obtain ⟨merged, hMerged, hSame⟩ := h.covered occurrence hOccurrence
    exact List.mem_map.mpr ⟨merged, hMerged, hSame⟩

end Setting

end ResponseModels
