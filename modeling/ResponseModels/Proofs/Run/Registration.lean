import ResponseModels.Proofs.Model.Composed
import ResponseModels.Proofs.Run.Stages

/-! What a request brings into the graph. Making interfaces registers interfaces and nothing else,
so the names of a request's classes and of its parser are free until the request registers them.
They come in as they are, and so does everything that they refer to. -/
namespace ResponseModels

open GraphQL

namespace Graph

variable {graph first second third : Graph}

/-- The very model stands under its name. -/
def Holds (graph : Graph) (model : Model) : Prop := graph.get? model.name = some model

/-- Whatever the second graph has beyond the first is an interface. -/
def GainsInterfaces (first second : Graph) : Prop :=
  ∀ name model, second.get? name = some model →
    first.get? name = some model ∨ ∃ interface, model = .interface interface

theorem GainsInterfaces.refl (graph : Graph) : graph.GainsInterfaces graph :=
  fun _ _ hModel => .inl hModel

theorem GainsInterfaces.trans (h : first.GainsInterfaces second)
    (h' : second.GainsInterfaces third) : first.GainsInterfaces third := by
  intro name model hModel
  rcases h' name model hModel with hOld | hNew
  · exact h name model hOld
  · exact .inr hNew

/-- Interfaces refer to interfaces only. -/
theorem gainsInterfaces_registerQueue {queue : List Model}
    (hQueue : ∀ model ∈ queue, ∃ interface, model = .interface interface) :
    graph.GainsInterfaces (graph.registerQueue queue) := by
  fun_induction registerQueue graph queue with
  | case1 graph => exact .refl graph
  | case2 graph model rest _ ih =>
      exact ih fun other hOther => hQueue other (List.mem_cons_of_mem _ hOther)
  | case3 graph model rest _ ih =>
      obtain ⟨interface, rfl⟩ := hQueue model List.mem_cons_self
      have hInserted : graph.GainsInterfaces
          ⟨graph.models.insert (Model.interface interface).name (.interface interface)⟩ := by
        intro name found hFound
        rw [get?_insert] at hFound
        split at hFound
        · exact .inr ⟨interface, (Option.some.inj hFound).symm⟩
        · exact .inl hFound
      apply hInserted.trans
      apply ih
      intro other hOther
      rcases List.mem_append.mp hOther with hRest | hBase
      · exact hQueue other (List.mem_cons_of_mem _ hRest)
      · obtain ⟨base, _, rfl⟩ := List.mem_map.mp hBase
        exact ⟨base, rfl⟩

end Graph

/-- A relation that holds across whatever a step does to a session: a name is given, a request at
an accepted place is noted, an allowed model is registered, an interface is kept. -/
structure Session.Unfolds (allowed : Model → Prop) (accepted : Place → Prop)
    (R : Session → Session → Prop) : Prop where
  refl : ∀ session, R session session
  trans : ∀ {first second third}, R first second → R second third → R first third
  names : ∀ (session : Session) (names : Names), R session { session with names := names }
  enqueue : ∀ (session : Session) (request : Request), accepted request.place →
    R session (session.enqueue request)
  register : ∀ (session : Session) (model : Model), allowed model →
    R session (session.register model)
  addInterface : ∀ (session : Session) (key : OriginKey) (model : InterfaceModel),
    R session (session.addInterface key model)

namespace Build

variable {α : Type} {allowed : Model → Prop} {accepted : Place → Prop}
  {R : Session → Session → Prop}

/-- The sessions before and after the step are related, whatever the step yields. -/
def Moves (R : Session → Session → Prop) (step : Build α) : Prop :=
  ∀ before value after, step.Yields before value after → R before after

/-- The whole step does what each step that it is made of does. -/
theorem Composed.moves (hR : Session.Unfolds allowed accepted R) {step : Build α}
    (h : Composed allowed accepted step) : Moves R step := by
  induction h with
  | pure value =>
      intro before result after h
      rw [yields_pure] at h
      rw [h.2]
      exact hR.refl before
  | throw cause => exact fun _ _ _ h => absurd h (yields_throw _ _)
  | bind _ _ ihStep ihNext =>
      intro before result after h
      rw [yields_bind] at h
      obtain ⟨value, middle, hFirst, hSecond⟩ := h
      exact hR.trans (ihStep before value middle hFirst)
        (ihNext value middle result after hSecond)
  | look _ _ ih =>
      intro before result after h
      rw [yields_get_bind] at h
      exact ih before before result after h
  | requestName key proposed =>
      intro before name after h
      rw [yields_requestName] at h
      rw [h.2]
      exact hR.names _ _
  | register hAllowed =>
      intro before result after h
      rw [yields_register] at h
      rw [h]
      exact hR.register _ _ hAllowed
  | addInterface key model =>
      intro before result after h
      rw [yields_modify] at h
      rw [h]
      exact hR.addInterface _ _ _
  | enqueue hAccepted =>
      intro before result after h
      rw [yields_modify] at h
      rw [h]
      exact hR.enqueue _ _ hAccepted

end Build

/-- Making interfaces brings nothing but interfaces into the graph. -/
theorem Session.unfolds_gainsInterfaces :
    Session.Unfolds (fun _ => False) (fun _ => True) fun before after =>
      before.graph.GainsInterfaces after.graph where
  refl session := .refl _
  trans h h' := h.trans h'
  names session names := .refl _
  enqueue session request _ := .refl _
  register session model hNone := hNone.elim
  addInterface session key model := by
    apply Graph.gainsInterfaces_registerQueue
    intro other hOther
    exact ⟨model, List.mem_singleton.mp hOther⟩

variable {task : Task} {names : Names} {operations : List Operation}
  {parents requests others taken rest : List Request} {before middle after : Session}
  {request : Request} {key : OriginKey}

/-- The key of the class of a request for the named type. -/
def Request.classKey (request : Request) (type : String) : OriginKey :=
  .leaf (.modelClass type request.locations)

def Request.parserKey (request : Request) : OriginKey := .leaf (.resultParser request.locations)

theorem Request.classKey_inj {type other : String}
    (h : request.classKey type = request.classKey other) : type = other := by
  injection h with hOrigin
  injection hOrigin

/-- The keys of a request's own models, apart from interfaces and operations. -/
inductive Request.Leaf (request : Request) : OriginKey → Prop
  | caseClass (type : String) : request.Leaf (request.classKey type)
  | resultParser : request.Leaf request.parserKey

/-- No model stands under the name of the key. -/
def Session.Vacant (session : Session) (key : OriginKey) : Prop :=
  ∀ name, session.names.nameOf? key = some name → session.graph.get? name = none

theorem Request.Leaf.inFile {setting : Setting} (hLeaf : request.Leaf key)
    (hKnown : request.Known setting requests) :
    key.inFile setting.document.file = key := by
  cases hLeaf with
  | caseClass type =>
      simp only [classKey, OriginKey.leaf, OriginKey.inFile, OriginKey.inFileAll, Origin.inFile]
      rw [hKnown.inFile_locations]
  | resultParser =>
      simp only [parserKey, OriginKey.leaf, OriginKey.inFile, OriginKey.inFileAll, Origin.inFile]
      rw [hKnown.inFile_locations]

namespace Sound

/-- No interface is kept for the key of a class or a parser. -/
theorem interface?_leaf (h : Sound task parents requests before) (hLeaf : request.Leaf key) :
    before.interface? key = none := by
  cases hFound : before.interface? key with
  | none => rfl
  | some model =>
      obtain ⟨tree, rfl, hRooted, _⟩ := h.represents _ _ hFound
      have hHead := (hRooted tree (.self _)).origin_cases
      have hOrigin : tree.key.origin = tree.branch.origin := by
        rw [tree.key_eq]
        rfl
      rw [← hOrigin] at hHead
      generalize tree.key = key at hLeaf hHead
      cases hLeaf <;>
        simp [Request.classKey, Request.parserKey, OriginKey.leaf, OriginKey.origin] at hHead

/-- A request that is not among the parents has no class and no parser. -/
theorem vacant_of_not_mem (hSetting : task.toSetting.Admissible)
    (h : Sound task parents requests before) (hRequest : request ∈ requests)
    (hNew : request ∉ parents) (hLeaf : request.Leaf key) : before.Vacant key := by
  intro name hName
  cases hFound : before.graph.get? name with
  | none => rfl
  | some model =>
      have hKnown := h.known hSetting request hRequest
      have hOwns := h.owns_of_name hSetting hFound hName (hLeaf.inFile hKnown)
      have hSame : ∀ other ∈ parents, request.locations = other.locations → False := by
        intro other hOther hLocations
        rw [h.history.locations_inj hRequest (h.active hOther) hLocations] at hNew
        exact hNew hOther
      have hNone := h.interface?_leaf hLeaf
      generalize hKey : key = owner at hOwns
      cases hOwns with
      | interface hKept =>
          rw [← hKey, hNone] at hKept
          cases hKept
      | caseClass hOther =>
          cases hLeaf with
          | caseClass type =>
              injection hKey with hOrigin
              injection hOrigin with _ hLocations
              exact (hSame _ hOther hLocations).elim
          | resultParser => cases hKey
      | resultParser hOther _ =>
          cases hLeaf with
          | caseClass type => cases hKey
          | resultParser =>
              injection hKey with hOrigin
              injection hOrigin with hLocations
              exact (hSame _ hOther hLocations).elim
      | operation => cases hLeaf <;> cases hKey

/-- New interfaces do not take the names of classes and parsers. -/
theorem vacant_of_gains (hSetting : task.toSetting.Admissible)
    (h : Sound task parents requests before) (h' : Sound task parents others after)
    (hKeeps : before.Keeps after) (hGains : before.graph.GainsInterfaces after.graph)
    (hRequest : request ∈ others) (hLeaf : request.Leaf key) (hVacant : before.Vacant key) :
    after.Vacant key := by
  intro name hName
  cases hFound : after.graph.get? name with
  | none => rfl
  | some model =>
      have hIn := hLeaf.inFile (h'.known hSetting request hRequest)
      rcases hGains name model hFound with hOld | ⟨interface, rfl⟩
      · -- The model was there, so its key had the name already.
        obtain ⟨owner, hOwns, hOwner⟩ := h.owned name model hOld
        have hKey : key = owner := h'.names.key_eq hName (hKeeps.names _ _ hOwner) hIn
          (h.inFile_of_owns hSetting hOwns)
        rw [← hKey] at hOwner
        rw [hVacant name hOwner] at hOld
        cases hOld
      · have hOwns := h'.owns_of_name hSetting hFound hName hIn
        cases hOwns with
        | interface hKept =>
            rw [h'.interface?_leaf hLeaf] at hKept
            cases hKept

end Sound

/-- What a step registers while a request is modelled: interfaces, and the listed models. These
stand under the names of their keys as they are, and so does what they refer to. The other keys of
the request stay vacant, and what was there before stays. -/
structure Registers (request : Request) (before after : Session)
    (models : List (OriginKey × Model)) : Prop extends Session.Keeps before after where
  stays : ∀ name model, before.graph.get? name = some model → after.graph.get? name = some model
  gained : ∀ name model, after.graph.get? name = some model →
    before.graph.get? name = some model ∨ (∃ interface, model = .interface interface) ∨
      ∃ entry ∈ models, entry.2 = model
  named : ∀ entry ∈ models, after.names.nameOf? entry.1 = some entry.2.name
  held : ∀ entry ∈ models, after.graph.Holds entry.2
  referred : ∀ entry ∈ models, ∀ reference ∈ entry.2.references, after.graph.Holds reference
  vacant : ∀ key, request.Leaf key → key ∉ models.map Prod.fst → before.Vacant key →
    after.Vacant key

theorem Registers.trans {models more : List (OriginKey × Model)}
    (h : Registers request before middle models) (h' : Registers request middle after more) :
    Registers request before after (models ++ more) := by
  refine ⟨h.toKeeps.trans h'.toKeeps, fun name model hModel => h'.stays _ _ (h.stays _ _ hModel),
    ?_, ?_, ?_, ?_, ?_⟩
  · intro name model hModel
    rcases h'.gained name model hModel with hOld | hNew | ⟨entry, hEntry, hSame⟩
    · rcases h.gained name model hOld with hOlder | hNew | ⟨entry, hEntry, hSame⟩
      · exact .inl hOlder
      · exact .inr (.inl hNew)
      · exact .inr (.inr ⟨entry, List.mem_append_left _ hEntry, hSame⟩)
    · exact .inr (.inl hNew)
    · exact .inr (.inr ⟨entry, List.mem_append_right _ hEntry, hSame⟩)
  · intro entry hEntry
    rcases List.mem_append.mp hEntry with hEntry | hEntry
    · exact h'.names _ _ (h.named entry hEntry)
    · exact h'.named entry hEntry
  · intro entry hEntry
    rcases List.mem_append.mp hEntry with hEntry | hEntry
    · exact h'.stays _ _ (h.held entry hEntry)
    · exact h'.held entry hEntry
  · intro entry hEntry reference hReference
    rcases List.mem_append.mp hEntry with hEntry | hEntry
    · exact h'.stays _ _ (h.referred entry hEntry reference hReference)
    · exact h'.referred entry hEntry reference hReference
  · intro key hLeaf hKey hVacant
    rw [List.map_append, List.mem_append, not_or] at hKey
    exact h'.vacant key hLeaf hKey.2 (h.vacant key hLeaf hKey.1 hVacant)

/-- Classes that a request has registered, by the types of their keys. -/
def Request.classEntries (request : Request) (entries : List (String × ClassModel)) :
    List (OriginKey × Model) :=
  entries.map fun entry => (request.classKey entry.1, .class entry.2)

namespace Sound

variable {cases : List Collected} {selected : SelectedModel} {returnType : InterfaceModel}

/-- A step that brings in nothing but interfaces. -/
theorem registers_nil (hSetting : task.toSetting.Admissible)
    (h : Sound task parents requests before) (h' : Sound task parents others after)
    (hOnward : Onward task.toSetting request before after requests others)
    (hGains : before.graph.GainsInterfaces after.graph) (hRequest : request ∈ others) :
    Registers request before after [] := by
  refine ⟨hOnward.toKeeps, hOnward.graph, ?_, by simp, by simp, by simp, ?_⟩
  · intro name model hModel
    rcases hGains name model hModel with hOld | hNew
    · exact .inl hOld
    · exact .inr (.inl hNew)
  · intro key hLeaf _ hVacant
    exact h.vacant_of_gains hSetting h' hOnward.toKeeps hGains hRequest hLeaf hVacant

/-- A model comes in under the name of its vacant key. -/
theorem registers_singleton (hSetting : task.toSetting.Admissible)
    (h : Sound task parents requests before) (hRequest : request ∈ requests)
    (hLeaf : request.Leaf key) (hVacant : before.Vacant key) {model : Model}
    (hName : before.names.nameOf? key = some model.name)
    (hReferences : ∀ reference ∈ model.references, before.graph.Holds reference) :
    Registers request before (before.register model) [(key, model)] := by
  have hContains : ∀ reference ∈ model.references,
      before.graph.contains reference.name = true := fun reference hReference =>
    (Graph.contains_iff _ _).mpr ⟨_, hReferences reference hReference⟩
  have hFree : before.graph.contains model.name = false := by
    rw [← Bool.not_eq_true, Graph.contains_iff, hVacant _ hName]
    simp
  have hGraph : ∀ name, (before.register model).graph.get? name =
      if name = model.name then some model else before.graph.get? name := by
    intro name
    change (before.graph.register model).get? name = _
    rw [Graph.get?_register hContains]
    simp [hFree]
  have hKnown := h.known hSetting request hRequest
  refine ⟨⟨fun _ _ hNamed => hNamed, fun _ _ hFound => hFound⟩,
    fun _ _ hModel => Graph.get?_register_of_some hContains hModel, ?_, ?_, ?_, ?_, ?_⟩
  · intro name found hFound
    rw [hGraph] at hFound
    split at hFound
    · exact .inr (.inr ⟨(key, model), by simp, Option.some.inj hFound⟩)
    · exact .inl hFound
  · intro entry hEntry
    rw [List.mem_singleton.mp hEntry]
    exact hName
  · simp [Graph.Holds, hGraph]
  · intro entry hEntry reference hReference
    rw [List.mem_singleton.mp hEntry] at hReference
    exact Graph.get?_register_of_some hContains (hReferences reference hReference)
  · intro other hOther hNe hFree name hNamed
    rw [hGraph, if_neg, hFree name hNamed]
    rintro rfl
    have hSame : other = key :=
      h.names.key_eq hNamed hName (hOther.inFile hKnown) (hLeaf.inFile hKnown)
    simp [hSame] at hNe

/-- Asking for the name of a vacant key and registering a model under it. -/
theorem registers_named (hSetting : task.toSetting.Admissible)
    (h : Sound task parents requests before) (hRequest : request ∈ requests)
    (hLeaf : request.Leaf key) (hVacant : before.Vacant key) {proposed : String} (model : Model)
    (hName : (Build.requestName key proposed).Yields before model.name middle)
    (hReferences : ∀ reference ∈ model.references, before.graph.Holds reference) :
    Registers request before (middle.register model) [(key, model)] := by
  obtain ⟨hNamed, hOnward, hKey, _, hGraph⟩ := h.requestName request hName
  have hFirst : Registers request before middle [] :=
    h.registers_nil hSetting hNamed hOnward (hGraph ▸ .refl _) hRequest
  exact hFirst.trans (hNamed.registers_singleton hSetting hRequest hLeaf
    (hFirst.vacant key hLeaf (by simp) hVacant) hKey (by rwa [hGraph]))

/-- The class of a type case. -/
theorem registers_caseClass (hSetting : task.toSetting.Admissible)
    (h : Sound task parents requests before) (hParent : request ∈ parents)
    (hReturn : before.interface? request.returnTree.key = some returnType)
    {case : Collected} (hCase : IsCase task.toSetting request case)
    {represented : List SchemaType} {type proposed : String} {model : ClassModel}
    (hVacant : before.Vacant (request.classKey type))
    (hYields : (Build.caseClass task request returnType case represented type proposed).Yields
      before model after) :
    Registers request before after [(request.classKey type, .class model)] := by
  obtain ⟨extras, middle, name, named, hExtras, hName, rfl, rfl⟩ := Build.yields_caseClass hYields
  obtain ⟨others, hSound, hOnward, hFrom, _⟩ := h.extraInterfaces hSetting hParent
    (fun tree hTree => growing_caseExtras hCase hTree) hExtras
  have hRequest : request ∈ others := hSound.active hParent
  have hGains := (Build.Composed.extraInterfaces (fun _ _ => trivial) _ _).moves
    Session.unfolds_gainsInterfaces _ _ _ hExtras
  have hMade := h.registers_nil hSetting hSound hOnward hGains hRequest
  have hReferences : ∀ reference ∈
      (Model.class ⟨type, Build.distinctByName (returnType :: extras), name⟩).references,
      middle.graph.Holds reference := by
    intro reference hReference
    obtain ⟨base, hBase, rfl⟩ := List.mem_map.mp hReference
    rcases List.mem_cons.mp ((Build.distinctByName_spec _).1 hBase) with rfl | hExtra
    · exact hSound.kept _ _ (hOnward.interfaces _ _ hReturn)
    · obtain ⟨tree, _, _, hFound⟩ := hFrom base hExtra
      exact hSound.kept _ _ hFound
  have hLeaf : request.Leaf (request.classKey type) := .caseClass type
  exact hMade.trans (hSound.registers_named hSetting hRequest hLeaf
    (hMade.vacant _ hLeaf (by simp) hVacant) _ hName hReferences)

/-- The classes for the type cases of a request, by the types of the cases. -/
theorem registers_caseClasses (hSetting : task.toSetting.Admissible)
    (h : Sound task parents requests before) (hParent : request ∈ parents)
    (hReturn : before.interface? request.returnTree.key = some returnType)
    (hCases : ∀ case ∈ cases, IsCase task.toSetting request case)
    (hTypes : (cases.map fun case => case.type.name).Nodup)
    (hVacant : ∀ case ∈ cases, before.Vacant (request.classKey case.type.name))
    {entries : List (String × ClassModel)}
    (hYields : (Build.caseClasses task request returnType cases).Yields before entries after) :
    entries.map Prod.fst = cases.map (fun case => case.type.name) ∧
      Registers request before after (request.classEntries entries) := by
  induction cases generalizing requests before entries with
  | nil =>
      rw [Build.caseClasses, Build.yields_pure] at hYields
      obtain ⟨rfl, rfl⟩ := hYields
      exact ⟨rfl, h.registers_nil hSetting h (.refl _ _) (.refl _) (h.active hParent)⟩
  | cons case rest ih =>
      obtain ⟨model, middle, more, hModel, hMore, rfl⟩ := Build.yields_caseClasses_cons hYields
      have hCase := hCases case List.mem_cons_self
      have hFirst := h.registers_caseClass hSetting hParent hReturn hCase
        (hVacant case List.mem_cons_self) hModel
      obtain ⟨others, hSound, hOnward, _, _⟩ := h.caseClass hSetting hParent hReturn hCase hModel
      rw [List.map_cons, List.nodup_cons] at hTypes
      have hLeft : ∀ other ∈ rest, middle.Vacant (request.classKey other.type.name) := by
        intro other hOther
        refine hFirst.vacant _ (.caseClass _) ?_ (hVacant other (List.mem_cons_of_mem _ hOther))
        intro hMem
        have hSame := Request.classKey_inj (List.mem_singleton.mp hMem)
        exact hTypes.1 (List.mem_map.mpr ⟨other, hOther, hSame⟩)
      obtain ⟨hNames, hRest⟩ := ih hSound (hOnward.interfaces _ _ hReturn)
        (fun other hOther => hCases other (List.mem_cons_of_mem _ hOther)) hTypes.2 hLeft hMore
      exact ⟨by simp [hNames], hFirst.trans hRest⟩

/-- The parser of a request whose classes are registered. -/
theorem registers_resultParser (hSetting : task.toSetting.Admissible)
    (h : Sound task parents requests before) (hParent : request ∈ parents)
    (hReturn : before.interface? request.returnTree.key = some returnType)
    {classes : List ClassModel} (hClasses : ∀ model ∈ classes, before.graph.Holds (.class model))
    {discriminators : OrderedMap String} (hVacant : before.Vacant request.parserKey)
    (hYields : (Build.resultParser task request returnType classes discriminators).Yields
      before selected after) :
    Registers request before after [(request.parserKey, .parser selected.parser)] := by
  obtain ⟨name, proposed, named, hName, rfl, rfl⟩ := Build.yields_resultParser hYields
  refine h.registers_named hSetting (h.active hParent) .resultParser hVacant _ hName ?_
  intro reference hReference
  rcases List.mem_cons.mp hReference with rfl | hReference
  · exact h.kept _ _ hReturn
  · obtain ⟨model, hModel, rfl⟩ := List.mem_map.mp hReference
    exact hClasses model hModel

/-- The parser comes in after the classes that it reads into. -/
theorem registers_parser_of_classes (hSetting : task.toSetting.Admissible)
    {entries : List (String × ClassModel)}
    (hClassed : Registers request before middle (request.classEntries entries))
    (h : Sound task parents requests middle) (hParent : request ∈ parents)
    (hReturn : middle.interface? request.returnTree.key = some returnType)
    (hVacant : before.Vacant request.parserKey) {discriminators : OrderedMap String}
    (hYields : (Build.resultParser task request returnType (entries.map Prod.snd)
      discriminators).Yields middle selected after) :
    selected.parser.classes = entries.map Prod.snd ∧
      Registers request before after
        (request.classEntries entries ++ [(request.parserKey, .parser selected.parser)]) := by
  have hClasses : ∀ model ∈ entries.map Prod.snd, middle.graph.Holds (.class model) := by
    intro model hModel
    obtain ⟨entry, hEntry, rfl⟩ := List.mem_map.mp hModel
    exact hClassed.held _ (List.mem_map.mpr ⟨entry, hEntry, rfl⟩)
  have hFree : middle.Vacant request.parserKey := by
    refine hClassed.vacant _ .resultParser ?_ hVacant
    simp [Request.classEntries, Request.classKey, Request.parserKey, OriginKey.leaf]
  have hParser := h.registers_resultParser hSetting hParent hReturn hClasses hFree hYields
  obtain ⟨_, _, _, _, rfl, _⟩ := Build.yields_resultParser hYields
  exact ⟨rfl, hClassed.trans hParser⟩

/-- What modelling a request registers: a class for each of some distinct types, and the parser
that reads into them. -/
theorem registers_model (hSetting : task.toSetting.Admissible)
    (h : Sound task parents requests before) (hParent : request ∈ parents)
    (hGrowing : Growing task request before request.returnTree)
    (hVacant : ∀ key, request.Leaf key → before.Vacant key)
    (hYields : (Build.model task request).Yields before selected after) :
    ∃ entries : List (String × ClassModel), selected.parser.classes = entries.map Prod.snd ∧
      (entries.map Prod.fst).Nodup ∧
      Registers request before after
        (request.classEntries entries ++ [(request.parserKey, .parser selected.parser)]) := by
  obtain ⟨cases, hCases, hModels⟩ := Build.yields_model hYields
  obtain ⟨_, hEach⟩ := Setting.typeCases_eq_ok hSetting hCases
  have hIsCase := isCase_of_casesIn hEach
  have hMade : ∀ {returnType : InterfaceModel} {made : Session},
      (Build.synthesize task request.path request.returnTree).Yields before returnType made →
      ∃ others, Sound task parents others made ∧ Registers request before made [] ∧
        made.interface? request.returnTree.key = some returnType := by
    intro returnType made hReturn
    obtain ⟨others, hSound, hOnward, hFound, _⟩ :=
      synthesizes hSetting hParent request.returnTree h hGrowing hReturn
    have hGains := (Build.Composed.synthesize (fun _ _ => trivial) _).moves
      Session.unfolds_gainsInterfaces _ _ _ hReturn
    exact ⟨others, hSound, h.registers_nil hSetting hSound hOnward hGains (hSound.active hParent),
      hFound⟩
  cases hModels with
  | @lone returnType first rest type proposed model made classed hReturn hSplit _ hModel hParser =>
      obtain ⟨others, hSound, hFirst, hFound⟩ := hMade hReturn
      have hCase := hIsCase first (by simp [hSplit])
      have hClass := hSound.registers_caseClass hSetting hParent hFound hCase
        (hFirst.vacant _ (.caseClass type) (by simp) (hVacant _ (.caseClass type))) hModel
      obtain ⟨_, hSound', hOnward, _, _⟩ :=
        hSound.caseClass hSetting hParent hFound hCase hModel
      have hClassed : Registers request before classed (request.classEntries [(type, model)]) :=
        hFirst.trans hClass
      obtain ⟨hClasses, hAll⟩ := registers_parser_of_classes hSetting hClassed hSound' hParent
        (hOnward.interfaces _ _ hFound) (hVacant _ .resultParser) hParser
      exact ⟨[(type, model)], hClasses, by simp, hAll⟩
  | @each returnType entries made classed hReturn hEntries hParser =>
      obtain ⟨others, hSound, hFirst, hFound⟩ := hMade hReturn
      have hTypes : (cases.map fun case => case.type.name).Nodup := by
        rw [map_type_name hEach]
        exact hSetting.schema.wellFormed.nodup_possible _
      obtain ⟨hNames, hClass⟩ := hSound.registers_caseClasses hSetting hParent hFound hIsCase hTypes
        (fun case _ => hFirst.vacant _ (.caseClass _) (by simp) (hVacant _ (.caseClass _)))
        hEntries
      obtain ⟨_, hSound', hOnward, _, _⟩ :=
        hSound.caseClasses hSetting hParent hFound hIsCase hEntries
      have hClassed : Registers request before classed (request.classEntries entries) :=
        hFirst.trans hClass
      obtain ⟨hClasses, hAll⟩ := registers_parser_of_classes hSetting hClassed hSound' hParent
        (hOnward.interfaces _ _ hFound) (hVacant _ .resultParser) hParser
      exact ⟨entries, hClasses, by rw [hNames]; exact hTypes, hAll⟩

/-- Classes that were registered for distinct types have distinct names. -/
theorem nodup_class_names (hSetting : task.toSetting.Admissible)
    (h : Sound task parents requests after) (hRequest : request ∈ requests)
    {entries : List (String × ClassModel)} (hTypes : (entries.map Prod.fst).Nodup)
    (hNamed : ∀ entry ∈ entries,
      after.names.nameOf? (request.classKey entry.1) = some entry.2.name) :
    ((entries.map Prod.snd).map ClassModel.name).Nodup := by
  have hKnown := h.known hSetting request hRequest
  have hIn : ∀ type, (request.classKey type).inFile task.document.file = request.classKey type :=
    fun type => Request.Leaf.inFile (.caseClass type) hKnown
  rw [List.map_map]
  apply List.Nodup.map_on _ (List.Nodup.of_map _ hTypes)
  intro entry hEntry other hOther hName
  have hOtherName : after.names.nameOf? (request.classKey other.1) = some entry.2.name := by
    rw [hNamed other hOther]
    exact congrArg some hName.symm
  have hKey := h.names.key_eq (hNamed entry hEntry) hOtherName (hIn _) (hIn _)
  exact List.inj_on_of_nodup_map hTypes hEntry hOther (Request.classKey_inj hKey)

end Sound

namespace Stage

variable {session next : Session} {selected : SelectedModel}

/-- The next request has not been taken up before. -/
theorem Valid.not_taken (h : Valid task taken (request :: rest) session) : request ∉ taken := by
  intro hMem
  have hNodup := h.sound.history.nodup_locations
  rw [List.map_append, List.nodup_append] at hNodup
  exact hNodup.2.2 _ (List.mem_map_of_mem hMem) _ (List.mem_map_of_mem (by simp)) rfl

/-- What modelling the next request of a run registers. -/
theorem Valid.registers (hSetting : task.toSetting.Admissible)
    (h : Valid task taken (request :: rest) session)
    (hYields : (Build.model task request).Yields session selected next) :
    ∃ entries : List (String × ClassModel), selected.parser.classes = entries.map Prod.snd ∧
      (entries.map Prod.fst).Nodup ∧
      Registers request session next
        (request.classEntries entries ++
          [(request.parserKey, .parser selected.parser)]) := by
  have hRequest : request ∈ taken ++ (request :: rest ++ session.pending) := by simp
  exact h.taking.registers_model hSetting (by simp)
    (h.sound.growing_returnTree hSetting h.returned)
    (fun key hLeaf => h.sound.vacant_of_not_mem hSetting hRequest h.not_taken hLeaf) hYields

end Stage

end ResponseModels
