import ResponseModels.Model.Graph
import ResponseModels.Schema.Serial

/-! Model graphs as plain data. Models refer to each other by name. -/
namespace ResponseModels

namespace FieldTarget

def toDatum : FieldTarget → Datum
  | composite model => .tagged "Composite" (.record [("model_name", .string model)])
  | leaf kind type =>
    .tagged "Leaf" (.record [("kind", .string kind.text), ("type_name", .string type)])

end FieldTarget

def FieldModel.toDatum (field : FieldModel) : Datum :=
  .record
    [("field_name", .string field.fieldName), ("model_type", field.target.toDatum),
      ("response_name", .string field.responseName), ("type_annotation", field.annotation.toDatum)]

def InterfaceModel.toDatum (model : InterfaceModel) : Datum :=
  .record
    [("fields", .array (model.fields.map FieldModel.toDatum)), ("graphql_type", .string model.type),
      ("implements", .array (model.bases.map fun base => .string base.name)),
      ("name", .string model.name)]

def ClassModel.toDatum (model : ClassModel) : Datum :=
  .record
    [("graphql_type", .string model.type),
      ("implements", .array (model.implements.map fun base => .string base.name)),
      ("name", .string model.name)]

def ParserSource.toDatum : ParserSource → Datum
  | field fieldName parentType responseName =>
    .tagged "Field" (.record
      [("field_name", .string fieldName), ("parent_type", .string parentType),
        ("response_name", .string responseName)])
  | operation kind name =>
    .tagged "Operation" (.record [("kind", .string kind.defaultRoot), ("name", .string name)])

def ModelPath.toDatum (path : ModelPath) : Datum := .array (path.segments.map .string)

def ParserModel.toDatum (model : ParserModel) : Datum :=
  .record
    [("classes", .array (model.classes.map fun member => .string member.name)),
      ("discriminators", .ofMap .string model.discriminators), ("name", .string model.name),
      ("path", model.path.toDatum), ("return_type", .string model.returnType.name),
      ("source", model.source.toDatum)]

def VariableModel.toDatum (model : VariableModel) : Datum :=
  .record [("name", .string model.name), ("type_annotation", model.annotation.toDatum)]

def OperationModel.toDatum (model : OperationModel) : Datum :=
  .record
    [("kind", .string model.kind.defaultRoot), ("name", .string model.name),
      ("result_parser", .string model.parser.name), ("result_type", .string model.returnType.name),
      ("root_type", .string model.rootType),
      ("variables", .array (model.vars.map VariableModel.toDatum))]

def Model.toDatum : Model → Datum
  | .class model => .tagged "Class" model.toDatum
  | .interface model => .tagged "Interface" model.toDatum
  | .operation model => .tagged "Operation" model.toDatum
  | .parser model => .tagged "ResultParser" model.toDatum

def Graph.toDatum (graph : Graph) : Datum :=
  .record [("descriptors", .ofMap Model.toDatum graph.models)]

end ResponseModels
