import ResponseModels.Model.Descriptor

/-! Model graphs: all models of a document under their names, in the order in which they were
registered. A model brings everything that it refers to along. -/
namespace ResponseModels

namespace InterfaceModel

mutual

/-- How many interfaces an interface and its bases amount to, shared ones counted each time. -/
def weight : InterfaceModel → Nat
  | mk _ _ bases _ => weightOf bases + 1

def weightOf : List InterfaceModel → Nat
  | [] => 0
  | base :: rest => base.weight + weightOf rest

end

end InterfaceModel

def ClassModel.weight (model : ClassModel) : Nat := InterfaceModel.weightOf model.implements + 1

def ClassModel.weightOf : List ClassModel → Nat
  | [] => 0
  | model :: rest => model.weight + weightOf rest

def ParserModel.weight (model : ParserModel) : Nat :=
  model.returnType.weight + ClassModel.weightOf model.classes + 1

namespace Model

/-- How many models a model and all it refers to amount to, shared ones counted each time. -/
def weight : Model → Nat
  | .class model => model.weight
  | .interface model => model.weight
  | .operation model => model.returnType.weight + model.parser.weight + 1
  | .parser model => model.weight

def weightOf : List Model → Nat
  | [] => 0
  | model :: rest => model.weight + weightOf rest

theorem weightOf_append (models more : List Model) :
    weightOf (models ++ more) = weightOf models + weightOf more := by
  induction models with
  | nil => simp [weightOf]
  | cons model rest ih =>
    simp only [List.cons_append, weightOf, ih]
    omega

theorem weightOf_interfaces (models : List InterfaceModel) :
    weightOf (models.map .interface) = InterfaceModel.weightOf models := by
  induction models with
  | nil => rfl
  | cons model rest ih => rw [List.map_cons, weightOf, InterfaceModel.weightOf, ih, weight]

theorem weightOf_classes (models : List ClassModel) :
    weightOf (models.map .class) = ClassModel.weightOf models := by
  induction models with
  | nil => rfl
  | cons model rest ih => rw [List.map_cons, weightOf, ClassModel.weightOf, ih, weight]

/-- A model weighs more than all it refers to. -/
theorem weightOf_references_lt (model : Model) : weightOf model.references < model.weight := by
  cases model with
  | «class» model =>
    rw [references, weightOf_interfaces, weight, ClassModel.weight]
    omega
  | interface model =>
    cases model
    rw [references, weightOf_interfaces, weight, InterfaceModel.weight, InterfaceModel.bases]
    omega
  | operation model =>
    simp only [references, weightOf, weight]
    omega
  | parser model =>
    rw [references, weightOf, weightOf_classes, weight, weight, ParserModel.weight]
    omega

end Model

/-- Models by their names. -/
structure Graph where
  models : OrderedMap Model
  deriving DecidableEq, Repr

namespace Graph

def empty : Graph := ⟨.empty⟩

def get? (graph : Graph) (name : String) : Option Model := graph.models.get? name

def contains (graph : Graph) (name : String) : Bool := graph.models.contains name

def size (graph : Graph) : Nat := graph.models.size

def isEmpty (graph : Graph) : Bool := graph.models.isEmpty

/-- Register the models of a queue, each followed in its turn by those it refers to. A name that
is already there keeps its model, and that model's references are not followed again. -/
def registerQueue (graph : Graph) (queue : List Model) : Graph :=
  match queue with
  | [] => graph
  | model :: rest =>
    if graph.contains model.name then graph.registerQueue rest
    else
      (Graph.mk (graph.models.insert model.name model)).registerQueue (rest ++ model.references)
termination_by Model.weightOf queue
decreasing_by
  · have heavier := model.weightOf_references_lt
    rw [Model.weightOf]
    omega
  · have heavier := model.weightOf_references_lt
    rw [Model.weightOf_append, Model.weightOf]
    omega

/-- Register a model and, breadth first, everything that it refers to. -/
def register (graph : Graph) (model : Model) : Graph := graph.registerQueue [model]

def interfaces (graph : Graph) : List InterfaceModel :=
  graph.models.values.filterMap Model.interface?

def classes (graph : Graph) : List ClassModel := graph.models.values.filterMap Model.class?

def parsers (graph : Graph) : List ParserModel := graph.models.values.filterMap Model.parser?

def operations (graph : Graph) : List OperationModel :=
  graph.models.values.filterMap Model.operation?

end Graph

end ResponseModels
