import ResponseModels.Model.Compile
import ResponseModels.Proofs.Data.Association

/-! Giving models other names. A renaming changes what models are called and how they are referred
to, and nothing else: types, fields, annotations, paths and sources stay, and so does every order.
One that is one to one commutes with all that is done with models by comparing their names. -/
namespace ResponseModels

variable (newName : String → String)

/-- The schema's own types keep their names. -/
def FieldTarget.rename : FieldTarget → FieldTarget
  | .composite model => .composite (newName model)
  | .leaf kind type => .leaf kind type

def FieldModel.rename (field : FieldModel) : FieldModel :=
  { field with target := field.target.rename newName }

mutual

def InterfaceModel.rename : InterfaceModel → InterfaceModel
  | .mk fields type bases name =>
    .mk (fields.map (FieldModel.rename newName)) type (InterfaceModel.renameAll bases)
      (newName name)

def InterfaceModel.renameAll : List InterfaceModel → List InterfaceModel
  | [] => []
  | model :: rest => model.rename :: InterfaceModel.renameAll rest

end

def ClassModel.rename (model : ClassModel) : ClassModel :=
  { model with
    implements := model.implements.map (InterfaceModel.rename newName)
    name := newName model.name }

/-- Discriminators are told by the names of types, which stay, and lead to those of classes. -/
def ParserModel.rename (model : ParserModel) : ParserModel :=
  { model with
    classes := model.classes.map (ClassModel.rename newName)
    discriminators := model.discriminators.mapEntries id newName
    name := newName model.name
    returnType := model.returnType.rename newName }

def OperationModel.rename (model : OperationModel) : OperationModel :=
  { model with
    name := newName model.name
    parser := model.parser.rename newName
    returnType := model.returnType.rename newName }

def SelectedModel.rename (model : SelectedModel) : SelectedModel :=
  ⟨model.parser.rename newName, model.returnType.rename newName⟩

def Model.rename : Model → Model
  | .class model => .class (model.rename newName)
  | .interface model => .interface (model.rename newName)
  | .operation model => .operation (model.rename newName)
  | .parser model => .parser (model.rename newName)

def Graph.rename (graph : Graph) : Graph := ⟨graph.models.mapEntries newName (Model.rename newName)⟩

def Request.rename (request : Request) : Request :=
  { request with returnTypeName := newName request.returnTypeName }

/-- The session with all models renamed, and with other names to draw on. -/
def Session.rename (session : Session) (names : Names) : Session where
  names := names
  interfaces := session.interfaces.map (Prod.map id (InterfaceModel.rename newName))
  requested := session.requested.map (Prod.map id newName)
  returnTrees := session.returnTrees
  pending := session.pending.map (Request.rename newName)
  graph := session.graph.rename newName

variable {newName}

namespace InterfaceModel

theorem renameAll_eq_map (models : List InterfaceModel) :
    renameAll newName models = models.map (InterfaceModel.rename newName) := by
  induction models with
  | nil => rfl
  | cons model rest ih => rw [renameAll, ih, List.map_cons]

@[simp] theorem name_rename (model : InterfaceModel) :
    (model.rename newName).name = newName model.name := by
  cases model
  rfl

@[simp] theorem bases_rename (model : InterfaceModel) :
    (model.rename newName).bases = model.bases.map (InterfaceModel.rename newName) := by
  cases model
  exact renameAll_eq_map _

theorem rename_mk (fields : List FieldModel) (type : String) (bases : List InterfaceModel)
    (name : String) :
    (mk fields type bases name).rename newName =
      mk (fields.map (FieldModel.rename newName)) type (bases.map (InterfaceModel.rename newName))
        (newName name) := by
  rw [InterfaceModel.rename, renameAll_eq_map]

mutual

/-- Fields are exposed under their response names, whatever the interfaces are called. -/
@[simp] theorem fieldNames_rename :
    ∀ model : InterfaceModel, (model.rename newName).fieldNames = model.fieldNames
  | .mk fields type bases name => by
    rw [InterfaceModel.rename, fieldNames, fieldNames, fieldNamesOf_renameAll bases, List.map_map]
    rfl

theorem fieldNamesOf_renameAll :
    ∀ models : List InterfaceModel, fieldNamesOf (renameAll newName models) = fieldNamesOf models
  | [] => rfl
  | model :: rest => by
    rw [renameAll, fieldNamesOf, fieldNamesOf, fieldNames_rename model,
      fieldNamesOf_renameAll rest]

end

end InterfaceModel

@[simp] theorem Model.name_rename (model : Model) :
    (model.rename newName).name = newName model.name := by
  cases model with
  | interface model => exact model.name_rename
  | «class» model => rfl
  | operation model => rfl
  | parser model => rfl

theorem Model.references_rename (model : Model) :
    (model.rename newName).references = model.references.map (Model.rename newName) := by
  cases model with
  | interface model => simp [Model.rename, Model.references]
  | «class» model => simp [Model.rename, Model.references, ClassModel.rename]
  | operation model => rfl
  | parser model => simp [Model.rename, Model.references, ParserModel.rename]

section OneToOne

variable (hRename : Function.Injective newName)

include hRename

/-- The first interface of each name is the first of each new name. -/
theorem Build.distinctByName_map (models : List InterfaceModel) :
    distinctByName (models.map (InterfaceModel.rename newName)) =
      (distinctByName models).map (InterfaceModel.rename newName) := by
  have hFold : ∀ all : List InterfaceModel,
      (models.map (InterfaceModel.rename newName)).foldl (fun all model =>
          if all.any (·.name == model.name) then all else all ++ [model])
        (all.map (InterfaceModel.rename newName)) =
      (models.foldl (fun all model =>
          if all.any (·.name == model.name) then all else all ++ [model]) all).map
        (InterfaceModel.rename newName) := by
    induction models with
    | nil => exact fun _ => rfl
    | cons model rest ih =>
        intro all
        have hKnown : (all.map (InterfaceModel.rename newName)).any
            (·.name == (model.rename newName).name) = all.any (·.name == model.name) := by
          rw [List.any_map]
          congr 1
          funext other
          simp [hRename.eq_iff]
        rw [List.map_cons, List.foldl_cons, List.foldl_cons, hKnown]
        split
        · exact ih all
        · rw [← ih, List.map_append, List.map_cons, List.map_nil]
  exact hFold []

namespace Graph

theorem contains_rename (graph : Graph) (name : String) :
    (graph.rename newName).contains (newName name) = graph.contains name :=
  OrderedMap.contains_mapEntries hRename _ _ _

theorem registerQueue_rename (graph : Graph) (queue : List Model) :
    (graph.rename newName).registerQueue (queue.map (Model.rename newName)) =
      (graph.registerQueue queue).rename newName := by
  fun_induction registerQueue graph queue with
  | case1 graph => rw [List.map_nil, registerQueue]
  | case2 graph model rest hKnown ih =>
      rw [List.map_cons, registerQueue, Model.name_rename, contains_rename hRename, if_pos hKnown,
        ih]
  | case3 graph model rest hNew ih =>
      have hInserted : (graph.rename newName).models.insert (newName model.name)
          (model.rename newName) =
          ((Graph.mk (graph.models.insert model.name model)).rename newName).models :=
        (OrderedMap.mapEntries_insert hRename _ _ _ _).symm
      rw [List.map_cons, registerQueue, Model.name_rename, contains_rename hRename, if_neg hNew,
        Model.references_rename, ← List.map_append, hInserted, ih]

/-- A model comes in under its new name where it came in before, with all it refers to. -/
theorem register_rename (graph : Graph) (model : Model) :
    (graph.rename newName).register (model.rename newName) =
      (graph.register model).rename newName :=
  registerQueue_rename hRename graph [model]

end Graph

end OneToOne

namespace Session

variable {session : Session} {names : Names}

theorem interface?_rename (key : OriginKey) :
    (session.rename newName names).interface? key =
      (session.interface? key).map (InterfaceModel.rename newName) :=
  Association.lookup_map Function.injective_id _ _ key

theorem lookup_requested_rename (origin : Origin) :
    (session.rename newName names).requested.lookup origin =
      (session.requested.lookup origin).map newName :=
  Association.lookup_map Function.injective_id _ _ origin

theorem register_rename (hRename : Function.Injective newName) (model : Model) :
    (session.rename newName names).register (model.rename newName) =
      (session.register model).rename newName names := by
  simp only [register, Session.rename, Graph.register_rename hRename]

theorem addInterface_rename (hRename : Function.Injective newName) (key : OriginKey)
    (model : InterfaceModel) :
    (session.rename newName names).addInterface key (model.rename newName) =
      (session.addInterface key model).rename newName names := by
  have hGraph := Graph.register_rename hRename session.graph (.interface model)
  simp only [addInterface, register, Session.rename, ← hGraph]
  rfl

theorem enqueue_rename (request : Request) :
    (session.rename newName names).enqueue (request.rename newName) =
      (session.enqueue request).rename newName names := by
  simp [enqueue, Session.rename, Request.rename]

end Session

end ResponseModels
