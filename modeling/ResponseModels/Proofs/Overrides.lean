import ResponseModels.Proofs.FieldModels

/-! Composite fields that an interface declares once more. The model of such a field extends the
model that a base declares the field with exactly if its return tree holds that of the base. It
does where the model was first asked for, for all bases there; an interface that comes to the same
nodes by other fragments has to do with what was asked for. -/
namespace ResponseModels

open GraphQL

namespace InterfaceModel

mutual

/-- The bases of an interface, their bases, and so on. -/
def allBases : InterfaceModel → List InterfaceModel
  | mk _ _ bases _ => allBasesOf bases

def allBasesOf : List InterfaceModel → List InterfaceModel
  | [] => []
  | base :: rest => base :: (base.allBases ++ allBasesOf rest)

end

theorem mem_allBasesOf {base : InterfaceModel} {models : List InterfaceModel} :
    base ∈ allBasesOf models ↔ ∃ model ∈ models, base = model ∨ base ∈ model.allBases := by
  induction models with
  | nil => simp [allBasesOf]
  | cons model rest ih => simp [allBasesOf, ih, or_assoc]

theorem mem_allBases {model base : InterfaceModel} :
    base ∈ model.allBases ↔ ∃ direct ∈ model.bases, base = direct ∨ base ∈ direct.allBases := by
  cases model with
  | mk fields type bases name =>
      rw [allBases]
      exact mem_allBasesOf

end InterfaceModel

/-- The first name is that of a model which is or extends the model of the second name. -/
def Graph.Covariant (graph : Graph) (model base : String) : Prop :=
  model = base ∨ ∃ derived ∈ graph.interface? model, ∃ found ∈ graph.interface? base,
    found ∈ derived.allBases

instance (graph : Graph) (model base : String) : Decidable (graph.Covariant model base) :=
  inferInstanceAs (Decidable (_ ∨ _))

variable {task : Task} {names : Names} {operations : List Operation}
  {parents requests taken : List Request} {session : Session} {request other : Request}
  {tree : FragmentTree} {model base : InterfaceModel}

/-- What the interface of a tree extends are the interfaces of the trees in it. -/
theorem Sound.mem_allBases_iff (hSetting : task.toSetting.Admissible)
    (h : Sound task parents requests session) (hRooted : Rooted task.toSetting requests tree)
    (hFound : session.interface? tree.key = some model) :
    base ∈ model.allBases ↔ ∃ child ∈ tree.children, ∃ subtree,
      FragmentTree.Within subtree child ∧ session.interface? subtree.key = some base := by
  induction tree using FragmentTree.induct generalizing model with
  | node tree ih =>
      have hRepresents := h.represents_tree hSetting hRooted hFound
      have hChild : ∀ child ∈ tree.children, Rooted task.toSetting requests child :=
        fun child hMem => hRooted.within (.inner hMem (.self _))
      rw [InterfaceModel.mem_allBases]
      constructor
      · rintro ⟨direct, hDirect, hBase⟩
        obtain ⟨child, hMem, hKept⟩ := hRepresents.bases direct hDirect
        refine ⟨child, hMem, ?_⟩
        rcases hBase with rfl | hInner
        · exact ⟨child, .self _, hKept⟩
        · obtain ⟨inner, hInnerMem, subtree, hWithin, hSubtree⟩ :=
            (ih child hMem (hChild child hMem) hKept).mp hInner
          exact ⟨subtree, .inner hInnerMem hWithin, hSubtree⟩
      · rintro ⟨child, hMem, subtree, hWithin, hSubtree⟩
        obtain ⟨direct, hDirect, hKept⟩ := hRepresents.extended child hMem
        refine ⟨direct, hDirect, ?_⟩
        rcases FragmentTree.within_iff.mp hWithin with rfl | ⟨inner, hInnerMem, hInner⟩
        · rw [hKept] at hSubtree
          exact .inl (Option.some.inj hSubtree).symm
        · exact .inr ((ih child hMem (hChild child hMem) hKept).mpr
            ⟨inner, hInnerMem, subtree, hInner, hSubtree⟩)

/-- When a run is over, the model of one request is or extends that of another exactly if the
return tree of the one holds that of the other. -/
theorem Finished.covariant_iff (hStart : Startable task names operations)
    (h : Finished task names operations taken session) (hRequest : request ∈ taken)
    (hOther : other ∈ taken) :
    session.graph.Covariant request.returnTypeName other.returnTypeName ↔
      other.returnTree.key ∈ request.returnTree.allKeys := by
  have hSetting := hStart.setting
  have hSound := h.sound hStart
  obtain ⟨model, hKept, hModel, hName, _⟩ := h.model_of_request hStart hRequest
  obtain ⟨base, hKeptBase, hBase, hBaseName, _⟩ := h.model_of_request hStart hOther
  have hBases : base ∈ model.allBases ↔ _ := hSound.mem_allBases_iff hSetting
    (hSound.known hSetting request hRequest).rooted hKept
  rw [FragmentTree.mem_allKeys_iff]
  constructor
  · rintro (hSame | ⟨derived, hDerived, found, hFound, hMem⟩)
    · rw [← hName, ← hBaseName] at hSame
      have hKey := (hSound.interface_eq hSetting hKept hKeptBase hSame).1
      exact ⟨request.returnTree, .self _, hKey⟩
    · rw [Option.mem_def, hModel] at hDerived
      rw [Option.mem_def, hBase] at hFound
      cases hDerived
      cases hFound
      obtain ⟨child, hChild, subtree, hWithin, hSubtree⟩ := hBases.mp hMem
      have hKey := (hSound.interface_eq hSetting hSubtree hKeptBase rfl).1
      exact ⟨subtree, .inner hChild hWithin, hKey⟩
  · rintro ⟨subtree, hWithin, hKey⟩
    rw [← hKey] at hKeptBase
    rcases FragmentTree.within_iff.mp hWithin with rfl | ⟨child, hChild, hInner⟩
    · rw [hKept] at hKeptBase
      cases hKeptBase
      exact .inl (hName.symm.trans hBaseName)
    · exact .inr ⟨model, hModel, base, hBase,
        hBases.mpr ⟨child, hChild, subtree, hInner, hKeptBase⟩⟩

/-- A model extends what the bases declare its field with in the interface that first asked for
it. -/
theorem Finished.covariant_of_placedAt (hStart : Startable task names operations)
    (h : Finished task names operations taken session) (hRequest : request ∈ taken)
    {merged : MergedField} (hPlaced : PlacedAt task taken taken session request tree merged)
    (hFound : session.interface? tree.key = some model) (hBase : base ∈ model.bases)
    {field : FieldModel} (hField : field ∈ base.fields)
    (hKey : field.responseName = merged.responseKey) {name : String}
    (hTarget : field.target = .composite name) :
    session.graph.Covariant request.returnTypeName name := by
  have hSetting := hStart.setting
  have hSound := h.sound hStart
  obtain ⟨parent, hParent, hGrows⟩ := hPlaced.grown
  have hRooted := (hSound.known hSetting parent hParent).rooted_of_grows hSetting hParent hGrows
  obtain ⟨child, hChild, hKept⟩ :=
    (hSound.represents_tree hSetting hRooted hFound).bases base hBase
  obtain ⟨direct, hDirect, hFields⟩ := hPlaced.takesIn child hChild
  rw [hKept] at hDirect
  cases hDirect
  obtain ⟨earlier, hEarlier, rfl, hMem⟩ := hFields field hField hKey name hTarget
  exact (h.covariant_iff hStart hRequest hEarlier).mpr hMem

/-- The model of a field that is declared once more is or extends the model that a base declares
the field with exactly if its return tree holds that of the base. So it is for the bases of the
interface that first asked for the model. -/
theorem override_extends_iff (hStart : Startable task names operations) {graph : Graph}
    (hCompile : (compileOperations task names operations).1 = .ok graph)
    {interface : InterfaceModel} (hInterface : interface ∈ graph.interfaces)
    (hBase : base ∈ interface.allBases) {field inherited : FieldModel}
    (hField : field ∈ interface.fields) (hInherited : inherited ∈ base.fields)
    (hKey : field.responseName = inherited.responseName) {name baseName : String}
    (hTarget : field.target = .composite name)
    (hInheritedTarget : inherited.target = .composite baseName) :
    ∃ taken session request baseRequest origin,
      Finished task names operations taken session ∧ session.graph = graph ∧
      RequestedFor task taken session interface field request ∧
      RequestedFor task taken session base inherited baseRequest ∧
      (graph.Covariant name baseName ↔
        baseRequest.returnTree.key ∈ request.returnTree.allKeys) ∧
      (∃ parent ∈ taken, parent.Grows task.toSetting origin) ∧
      (∃ path fields, task.treeFields path origin = .ok fields ∧
        ∃ merged ∈ fields, request.Asks task.toSetting merged) ∧
      (session.interface? origin.key = some interface → base ∈ interface.bases →
        graph.Covariant name baseName) := by
  have hSetting := hStart.setting
  obtain ⟨taken, session, hFinished, rfl⟩ := exists_finished_of_compile hStart hCompile
  have hSound := hFinished.sound hStart
  have hKnown := hSound.known hSetting
  obtain ⟨whole, hWhole, _, hKept, _⟩ := hSound.exists_tree hInterface
  obtain ⟨_, _, _, _, hKeptBase⟩ := (hSound.mem_allBases_iff hSetting hWhole hKept).mp hBase
  obtain ⟨request, hFor, rfl⟩ :=
    hFinished.exists_requestedFor hStart hInterface hField hTarget
  obtain ⟨baseRequest, hBaseFor, rfl⟩ := hFinished.exists_requestedFor hStart
    (hSound.mem_interfaces hKeptBase) hInherited hInheritedTarget
  have hParts := hFor
  obtain ⟨tree, path, fields, merged, ⟨parent, hParent, hGrows⟩, _, hFields, hMerged, hDeclares,
    hRequest, hSame⟩ := hParts
  have hRooted := (hKnown parent hParent).rooted_of_grows hSetting hParent hGrows
  obtain ⟨_, _, _, _, _, _, _, _, _, _, hAsked⟩ :=
    hSound.history.askedIn hSetting hRequest hRooted hFields hMerged hSame
  obtain ⟨origin, first, hPlaced⟩ := hSound.placed request hRequest hAsked.operation
  obtain ⟨other, hOther, hOtherGrows⟩ := hPlaced.grown
  obtain ⟨place, others, hOthers, hFirst⟩ := hPlaced.selected
  have hOrigin := (hKnown other hOther).rooted_of_grows hSetting hOther hOtherGrows
  refine ⟨taken, session, request, baseRequest, origin, hFinished, rfl, hFor, hBaseFor,
    hFinished.covariant_iff hStart hRequest hBaseFor.mem, hPlaced.grown,
    ⟨place, others, hOthers, first, hFirst, hPlaced.asks⟩, fun hOwn hDirect => ?_⟩
  refine hFinished.covariant_of_placedAt hStart hRequest hPlaced hOwn hDirect hInherited ?_
    hInheritedTarget
  rw [← hKey, hDeclares.responseName]
  exact (hRooted.name_eq_of_locations hSetting hKnown hFields hMerged hOrigin hOthers hFirst
    (hSame.symm.trans hPlaced.asks.locations)).2

/-- An album has a title, a year and a label. -/
def albumTypes : List SchemaItem :=
  [.define ⟨⟨1, 1⟩, none, "Query", .object [] [⟨⟨1, 9⟩, none, "album", .named "Album"⟩]⟩,
    .define ⟨⟨2, 1⟩, none, "Album", .object []
      [⟨⟨2, 9⟩, none, "title", .named "String"⟩, ⟨⟨2, 19⟩, none, "year", .named "Int"⟩,
        ⟨⟨2, 29⟩, none, "label", .named "String"⟩]⟩]

/-- A fragment for one field of the album, with its nodes on one line. -/
def albumFragment (name field : String) (line : Nat) : ExecutableItem :=
  .fragment ⟨name, "Query", ⟨line, 1⟩,
    [.field ⟨line, 3⟩ none "album" [.field ⟨line, 5⟩ none field []]]⟩

/-- Two queries that come to the same three nodes of the album by different fragments. -/
def albumTask : Task :=
  (Task.ofItems? albumTypes
    [.operation ⟨.query, some "First", ⟨1, 1⟩, [],
        [.spread ⟨1, 3⟩ "TitleYear", .spread ⟨1, 5⟩ "Label"]⟩,
      .operation ⟨.query, some "Second", ⟨2, 1⟩, [],
        [.spread ⟨2, 3⟩ "Title", .spread ⟨2, 5⟩ "YearLabel"]⟩,
      .fragment ⟨"TitleYear", "Query", ⟨3, 1⟩,
        [.spread ⟨3, 3⟩ "Title", .spread ⟨3, 5⟩ "Year"]⟩,
      .fragment ⟨"YearLabel", "Query", ⟨4, 1⟩,
        [.spread ⟨4, 3⟩ "Year", .spread ⟨4, 5⟩ "Label"]⟩,
      albumFragment "Title" "title" 5, albumFragment "Year" "year" 6,
      albumFragment "Label" "label" 7]).get (by decide +kernel)

/-- The album of the second query does not extend that of its fragment for year and label, since
the first query has asked for the same nodes with other bases. -/
theorem second_album_misses_yearLabel :
    ∃ graph interface base field inherited name baseName,
      (compileOperations albumTask (.initial 9) albumTask.document.operations).1 = .ok graph ∧
      interface ∈ graph.interfaces ∧ base ∈ interface.allBases ∧ field ∈ interface.fields ∧
      inherited ∈ base.fields ∧ field.responseName = inherited.responseName ∧
      field.target = .composite name ∧ inherited.target = .composite baseName ∧
      ¬ graph.Covariant name baseName ∧
      ∃ taken session request baseRequest,
        RequestedFor albumTask taken session interface field request ∧
        RequestedFor albumTask taken session base inherited baseRequest ∧
        baseRequest.returnTree.key ∉ request.returnTree.allKeys := by
  have hRun : (compileOperations albumTask (.initial 9)
      albumTask.document.operations).1.toOption.bind (fun graph =>
        (graph.interfaces.find? (·.name == "ISecond")).bind fun interface =>
          (interface.allBases.find? (·.name == "IYearLabel")).bind fun base =>
            (interface.fields.find? (·.responseName == "album")).bind fun field =>
              (base.fields.find? (·.responseName == "album")).map fun inherited =>
                (field.target, inherited.target,
                  decide (graph.Covariant field.target.name inherited.target.name))) =
      some (.composite "IAlbum4", .composite "IAlbum5", false) := by
    decide +kernel
  have hStart : Startable albumTask (.initial 9) albumTask.document.operations :=
    .ofItems (Option.some_get _).symm (by decide +kernel) 9
  obtain ⟨graph, hGraph, hFound⟩ := Option.bind_eq_some_iff.mp hRun
  obtain ⟨interface, hInterface, hFound⟩ := Option.bind_eq_some_iff.mp hFound
  obtain ⟨base, hBase, hFound⟩ := Option.bind_eq_some_iff.mp hFound
  obtain ⟨field, hField, hFound⟩ := Option.bind_eq_some_iff.mp hFound
  obtain ⟨inherited, hInherited, hComputed⟩ := Option.map_eq_some_iff.mp hFound
  obtain ⟨hTarget, hComputed⟩ := Prod.mk.inj hComputed
  obtain ⟨hInheritedTarget, hCovariant⟩ := Prod.mk.inj hComputed
  rw [hTarget, hInheritedTarget, decide_eq_false_iff_not] at hCovariant
  have hCompile := (Outcome.toOption_eq_some_iff _ _).mp hGraph
  have hMem := List.mem_of_find?_eq_some hInterface
  have hMemBase := List.mem_of_find?_eq_some hBase
  have hMemField := List.mem_of_find?_eq_some hField
  have hMemInherited := List.mem_of_find?_eq_some hInherited
  have hName := List.find?_some hField
  have hInheritedName := List.find?_some hInherited
  have hKey : field.responseName = inherited.responseName :=
    (eq_of_beq hName).trans (eq_of_beq hInheritedName).symm
  obtain ⟨taken, session, request, baseRequest, _, _, _, hFor, hBaseFor, hIff, _⟩ :=
    override_extends_iff hStart hCompile hMem hMemBase hMemField hMemInherited hKey hTarget
      hInheritedTarget
  exact ⟨graph, interface, base, field, inherited, "IAlbum4", "IAlbum5", hCompile, hMem, hMemBase,
    hMemField, hMemInherited, hKey, hTarget, hInheritedTarget, hCovariant, taken, session, request,
    baseRequest, hFor, hBaseFor, fun hHolds => hCovariant (hIff.mpr hHolds)⟩

end ResponseModels
