import ResponseModels.Schema.Basic
import ResponseModels.Model.Origin

/-! The models that a document is compiled into. -/
namespace ResponseModels

/-- What the value of a field is modelled as: a composite value by a model interface, any
other value by the schema's own type. -/
inductive FieldTarget where
  | composite (model : String)
  | leaf (kind : TypeKind) (type : String)
  deriving DecidableEq, Repr

namespace FieldTarget

def isComposite : FieldTarget → Bool
  | composite _ => true
  | leaf _ _ => false

def name : FieldTarget → String
  | composite model => model
  | leaf _ type => type

end FieldTarget

/-- A field that a model interface declares. -/
structure FieldModel where
  fieldName : String
  target : FieldTarget
  responseName : String
  annotation : Annotation
  deriving DecidableEq, Repr

/-- The same field with all files in their plainest spelling. -/
def FieldModel.plain (field : FieldModel) : FieldModel :=
  { field with annotation := field.annotation.plain }

/-- A model interface: the fields that it declares itself, and its bases. -/
inductive InterfaceModel where
  | mk (fields : List FieldModel) (type : String) (bases : List InterfaceModel) (name : String)
  deriving Repr

namespace InterfaceModel

/-- The fields that the interface declares itself. -/
def fields : InterfaceModel → List FieldModel
  | mk fields _ _ _ => fields

/-- The type of the schema that the interface is a view of. -/
def type : InterfaceModel → String
  | mk _ type _ _ => type

def bases : InterfaceModel → List InterfaceModel
  | mk _ _ bases _ => bases

def name : InterfaceModel → String
  | mk _ _ _ name => name

mutual

def decEq : (a b : InterfaceModel) → Decidable (a = b)
  | mk fields type bases name, mk fields' type' bases' name' =>
    if own : fields = fields' ∧ type = type' ∧ name = name' then
      match decEqList bases bases' with
      | isTrue equal => isTrue (by rw [own.1, own.2.1, own.2.2, equal])
      | isFalse differ => isFalse fun h => differ (by injection h)
    else isFalse fun h => own (by injection h; refine ⟨?_, ?_, ?_⟩ <;> assumption)

def decEqList : (as bs : List InterfaceModel) → Decidable (as = bs)
  | [], [] => isTrue rfl
  | [], _ :: _ => isFalse nofun
  | _ :: _, [] => isFalse nofun
  | a :: as, b :: bs =>
    match decEq a b with
    | isFalse differ => isFalse fun h => differ (by injection h)
    | isTrue same =>
      match decEqList as bs with
      | isTrue equal => isTrue (by rw [same, equal])
      | isFalse differ => isFalse fun h => differ (by injection h)

end

instance : DecidableEq InterfaceModel := decEq

mutual

/-- The same interface with all files in their plainest spelling. -/
def plain : InterfaceModel → InterfaceModel
  | mk fields type bases name => mk (fields.map FieldModel.plain) type (plainList bases) name

def plainList : List InterfaceModel → List InterfaceModel
  | [] => []
  | base :: rest => base.plain :: plainList rest

end

mutual

/-- The response names of all fields that the interface or one of its bases declares. -/
def fieldNames : InterfaceModel → List String
  | mk fields _ bases _ => fields.map FieldModel.responseName ++ fieldNamesOf bases

def fieldNamesOf : List InterfaceModel → List String
  | [] => []
  | base :: rest => base.fieldNames ++ fieldNamesOf rest

end

end InterfaceModel

/-- A class that values of one or more object types are read into. -/
structure ClassModel where
  type : String
  implements : List InterfaceModel
  name : String
  deriving DecidableEq, Repr

def ClassModel.plain (model : ClassModel) : ClassModel :=
  { model with implements := InterfaceModel.plainList model.implements }

/-- What a result parser reads. -/
inductive ParserSource where
  | field (fieldName parentType responseName : String)
  | operation (kind : GraphQL.OperationKind) (name : String)
  deriving DecidableEq, Repr

/-- How a value is read: which class each object type is read into. -/
structure ParserModel where
  classes : List ClassModel
  discriminators : OrderedMap String
  name : String
  path : ModelPath
  returnType : InterfaceModel
  source : ParserSource
  deriving DecidableEq, Repr

def ParserModel.plain (model : ParserModel) : ParserModel :=
  { model with
    classes := model.classes.map ClassModel.plain
    returnType := model.returnType.plain }

/-- The class for values of the named type. -/
def ParserModel.classFor? (parser : ParserModel) (type : String) : Option ClassModel :=
  (parser.discriminators.get? type).bind fun name => parser.classes.find? (·.name == name)

/-- A variable that an operation is called with. -/
structure VariableModel where
  name : String
  annotation : Annotation
  deriving DecidableEq, Repr

def VariableModel.plain (model : VariableModel) : VariableModel :=
  { model with annotation := model.annotation.plain }

/-- An operation: what it is called with, and how its result is typed and read. -/
structure OperationModel where
  kind : GraphQL.OperationKind
  name : String
  parser : ParserModel
  returnType : InterfaceModel
  rootType : String
  vars : List VariableModel
  deriving DecidableEq, Repr

def OperationModel.plain (model : OperationModel) : OperationModel :=
  { model with
    parser := model.parser.plain
    returnType := model.returnType.plain
    vars := model.vars.map VariableModel.plain }

/-- A model of any sort. -/
inductive Model where
  | class (model : ClassModel)
  | interface (model : InterfaceModel)
  | operation (model : OperationModel)
  | parser (model : ParserModel)
  deriving DecidableEq, Repr

namespace Model

def name : Model → String
  | .class model => model.name
  | .interface model => model.name
  | .operation model => model.name
  | .parser model => model.name

def class? : Model → Option ClassModel
  | .class model => some model
  | _ => none

def interface? : Model → Option InterfaceModel
  | .interface model => some model
  | _ => none

def operation? : Model → Option OperationModel
  | .operation model => some model
  | _ => none

def parser? : Model → Option ParserModel
  | .parser model => some model
  | _ => none

/-- The same model with all files in their plainest spelling. -/
def plain : Model → Model
  | .class model => .class model.plain
  | .interface model => .interface model.plain
  | .operation model => .operation model.plain
  | .parser model => .parser model.plain

/-- Are two models the same, down to everything they refer to? Spellings of one file count as
one. -/
def same (a b : Model) : Bool := a.plain = b.plain

/-- The models that a model refers to directly. -/
def references : Model → List Model
  | .class model => model.implements.map .interface
  | .interface model => model.bases.map .interface
  | .operation model => [.interface model.returnType, .parser model.parser]
  | .parser model => .interface model.returnType :: model.classes.map .class

end Model

end ResponseModels
