import ResponseModels.Proofs.Coverage
import ResponseModels.Proofs.Run.Registration

/-! Parsers tell the possible types apart. The discriminators of a request's parser run through the
possible types of its declared type, and each of them leads to one class of the parser, however
the classes were named and whether or not the type cases were read into one class. -/
namespace ResponseModels

open GraphQL

/-- The parser sends each of the types, and no other type, to one of its classes. -/
structure ParserModel.Discriminates (parser : ParserModel) (types : List String) : Prop where
  keys : parser.discriminators.keys = types
  nodup : types.Nodup
  each : ∀ name ∈ parser.discriminators.values,
    (parser.classes.map ClassModel.name).count name = 1
  used : ∀ model ∈ parser.classes, model.name ∈ parser.discriminators.values
  classFor : ∀ type, (parser.classFor? type).isSome = true ↔ type ∈ types
  length : parser.classes.length = 1 ∨ parser.classes.length = types.length

namespace ParserModel

variable {parser : ParserModel} {types : List String}

theorem classFor?_isSome_iff
    (hNamed : ∀ name ∈ parser.discriminators.values, name ∈ parser.classes.map ClassModel.name)
    (type : String) :
    (parser.classFor? type).isSome = true ↔ type ∈ parser.discriminators.keys := by
  rw [classFor?, ← OrderedMap.contains_eq_true_iff, OrderedMap.contains]
  cases hFound : parser.discriminators.get? type with
  | none => simp
  | some name =>
      obtain ⟨model, hModel, rfl⟩ :=
        List.mem_map.mp (hNamed name (OrderedMap.mem_values_of_get? hFound))
      simp only [Option.bind_some, Option.isSome_some, iff_true, List.find?_isSome]
      exact ⟨model, hModel, by simp⟩

theorem discriminates (hKeys : parser.discriminators.keys = types) (hTypes : types.Nodup)
    (hDistinct : (parser.classes.map ClassModel.name).Nodup)
    (hNames : ∀ name, name ∈ parser.discriminators.values ↔
      name ∈ parser.classes.map ClassModel.name)
    (hLength : parser.classes.length = 1 ∨ parser.classes.length = types.length) :
    parser.Discriminates types := by
  refine ⟨hKeys, hTypes, ?_, ?_, ?_, hLength⟩
  · intro name hName
    exact List.count_eq_one_of_mem hDistinct ((hNames name).mp hName)
  · intro model hModel
    exact (hNames model.name).mpr (List.mem_map_of_mem hModel)
  · intro type
    rw [classFor?_isSome_iff fun name hName => (hNames name).mp hName, hKeys]

end ParserModel

variable {task : Task} {names : Names} {operations : List Operation}
  {taken rest : List Request} {before after : Session} {request : Request}

/-- The discriminators run through the possible types, and their values are the names of the
classes: each its own, or all the same. -/
theorem Classified.keys_and_values {cases : List Collected} {parser : ParserModel}
    (hCases : request.CasesIn task.toSetting cases)
    (h : Classified task.toSetting request cases parser) :
    parser.discriminators.keys =
        (task.schema.possibleTypes request.declared.name).map FieldedType.name ∧
      (∀ name, name ∈ parser.discriminators.values ↔ name ∈ parser.classes.map ClassModel.name) ∧
      (parser.classes.length = 1 ∨
        parser.classes.length = (task.schema.possibleTypes request.declared.name).length) := by
  have hTypes := Sound.map_type_name hCases
  cases h with
  | @each entries hEach hClasses hRead =>
      have hEntries : entries.map Prod.fst = cases.map fun case => case.type.name := by
        clear hCases hTypes hClasses hRead
        induction hEach with
        | nil => rfl
        | cons hFirst _ ih => simp [hFirst.1, ih]
      rw [hClasses, hRead, ← hTypes, ← hEntries]
      refine ⟨?_, ?_, .inr ?_⟩
      · simp [OrderedMap.keys]
      · simp [OrderedMap.values]
      · rw [List.length_map, ← hEach.length_eq, hCases.length_eq]
  | @lone first others model hSplit _ _ hClasses hRead =>
      rw [hClasses, hRead, ← hTypes]
      refine ⟨?_, ?_, .inl rfl⟩
      · simp [OrderedMap.keys]
      · intro name
        simp [OrderedMap.values, hSplit, eq_comm]

/-- The parser of a request discriminates the possible types of the declared type, and it stands in
the graph with its classes. -/
theorem parser_discriminates_possible_types (hStart : Startable task names operations)
    (hStage : Stage task names operations taken (request :: rest) before)
    {selected : SelectedModel}
    (hYields : (Build.model task request).Yields before selected after) :
    selected.parser.Discriminates
        ((task.schema.possibleTypes request.declared.name).map FieldedType.name) ∧
      after.graph.get? selected.parser.name = some (.parser selected.parser) ∧
      ∀ model ∈ selected.parser.classes, after.graph.get? model.name = some (.class model) := by
  have hSetting := hStart.setting
  have hValid := hStage.valid hStart
  have hParent : request ∈ taken ++ [request] := by simp
  obtain ⟨cases, others, hCases, hModelled⟩ := hValid.taking.model hSetting hParent
    (hValid.sound.growing_returnTree hSetting hValid.returned) hYields
  obtain ⟨entries, hClasses, hTypes, hRegisters⟩ := hValid.registers hSetting hYields
  obtain ⟨hKeys, hNames, hLength⟩ := hModelled.classified.keys_and_values hCases
  have hEntry : ∀ entry ∈ entries, (request.classKey entry.1, Model.class entry.2) ∈
      request.classEntries entries ++ [(request.parserKey, .parser selected.parser)] :=
    fun entry hEntry => List.mem_append_left _ (List.mem_map.mpr ⟨entry, hEntry, rfl⟩)
  have hDistinct : (selected.parser.classes.map ClassModel.name).Nodup := by
    rw [hClasses]
    exact hModelled.sound.nodup_class_names hSetting (hModelled.sound.active hParent) hTypes
      fun entry hMem => hRegisters.named _ (hEntry entry hMem)
  have hParser := hRegisters.held (request.parserKey, .parser selected.parser) (by simp)
  refine ⟨ParserModel.discriminates hKeys (hSetting.schema.wellFormed.nodup_possible _) hDistinct
    hNames (by rwa [List.length_map]), hParser, ?_⟩
  intro model hModel
  rw [hClasses] at hModel
  obtain ⟨entry, hMem, rfl⟩ := List.mem_map.mp hModel
  exact hRegisters.held _ (hEntry entry hMem)

/-- What is searched for are books and films, and each is read into a class of its own. -/
theorem hits_parser_discriminates :
    ∃ taken request rest before selected after,
      Stage pagesTask (.initial 9) pagesTask.document.operations taken (request :: rest) before ∧
      (Build.model pagesTask request).Yields before selected after ∧
      selected.parser.discriminators.keys.length = 2 ∧ selected.parser.classes.length = 2 ∧
      selected.parser.Discriminates
        ((pagesTask.schema.possibleTypes request.declared.name).map FieldedType.name) := by
  have hRun : (Stage.models? pagesTask (.initial 9) pagesTask.document.operations 3).map
      (fun (_, selected) => (selected.parser.discriminators.keys.length,
        selected.parser.classes.length)) = some (2, 2) := by
    decide +kernel
  obtain ⟨⟨request, selected⟩, hSelected, hComputed⟩ := Option.map_eq_some_iff.mp hRun
  obtain ⟨hKeys, hClasses⟩ := Prod.mk.inj hComputed
  obtain ⟨taken, rest, before, after, hStage, hYields⟩ := Stage.exists_of_models? hSelected
  exact ⟨taken, request, rest, before, selected, after, hStage, hYields, hKeys, hClasses,
    (parser_discriminates_possible_types startable_pagesTask hStage hYields).1⟩

end ResponseModels
