import ResponseModels.Proofs.Model.Steps
import ResponseModels.Proofs.Selection.Flattening
import ResponseModels.Proofs.Selection.Trees

/-! What build steps are made of. From asking for the operations to taking up a request, every step
is put together from a few kinds of steps: one asks for a name, one keeps an interface, one notes a
request and one registers a model. What such a step does next hangs on the values it was given and
on the interfaces and requests that were made before; it reads neither the names that others have,
nor the queue, nor the graph. -/
namespace ResponseModels

open GraphQL

/-- Where a selection set stands, and what it is selected from. -/
structure Place where
  path : ModelPath
  source : ParserSource

def Request.place (request : Request) : Place := ⟨request.path, request.source⟩

/-- The place of what is selected beneath a merged field. -/
def MergedField.place (merged : MergedField) : Place :=
  ⟨merged.path, .field merged.field.name merged.field.parent.name merged.responseKey⟩

/-- The place of the selection set of an operation. -/
def Task.place (task : Task) (operation : Operation) : Place :=
  let name := operation.name.getD task.config.anonymousName
  ⟨.root name, .operation operation.kind name⟩

/-- The place is that of a field in the selection set at the path. -/
def Place.Under (place : Place) (path : ModelPath) : Prop :=
  ∃ field type key, place = ⟨path.child key, .field field type key⟩

/-- The fields of a tree stand right under the path at which they are merged. -/
theorem Setting.under_of_treeFields {setting : Setting} {path : ModelPath} {tree : FragmentTree}
    {fields : List MergedField} {merged : MergedField}
    (hFields : setting.treeFields path tree = .ok fields) (hMerged : merged ∈ fields) :
    merged.place.Under path := by
  obtain ⟨occurrences, hMerge, _⟩ := merged_of_treeFields hFields
  have hPath := (hMerge.each merged hMerged).path
  exact ⟨_, _, _, by rw [MergedField.place, hPath]⟩

namespace Build

/-- A step put together from few kinds, which registers nothing but allowed models on its own and
makes requests at accepted places only. -/
inductive Composed (allowed : Model → Prop) (accepted : Place → Prop) :
    {α : Type} → Build α → Prop
  | pure {α : Type} (value : α) : Composed allowed accepted (pure value)
  | throw {α : Type} (cause : ModelError) : Composed allowed accepted (throw cause : Build α)
  | bind {α β : Type} {step : Build α} {next : α → Build β} :
    Composed allowed accepted step → (∀ value, Composed allowed accepted (next value)) →
    Composed allowed accepted (step >>= next)
  | look {α : Type} {next : Session → Build α} :
    (∀ session names pending graph,
      next { session with names := names, pending := pending, graph := graph } = next session) →
    (∀ session, Composed allowed accepted (next session)) →
    Composed allowed accepted (get >>= next)
  | requestName (key : OriginKey) (proposed : String) :
    Composed allowed accepted (requestName key proposed)
  | register {model : Model} : allowed model → Composed allowed accepted (register model)
  | addInterface (key : OriginKey) (model : InterfaceModel) :
    Composed allowed accepted (modify (·.addInterface key model))
  | enqueue {request : Request} :
    accepted request.place → Composed allowed accepted (modify (·.enqueue request))

namespace Composed

variable {α β : Type} {allowed : Model → Prop} {accepted : Place → Prop} {task : Task}

theorem ofExcept (outcome : Except ModelError α) :
    Composed allowed accepted (Build.ofExcept outcome) := by
  cases outcome with
  | error cause => exact .throw cause
  | ok value => exact .pure value

/-- What follows an outcome may rest on it. -/
theorem ofExcept_bind {outcome : Except ModelError α} {next : α → Build β}
    (h : ∀ value, outcome = .ok value → Composed allowed accepted (next value)) :
    Composed allowed accepted (Build.ofExcept outcome >>= next) := by
  cases outcome with
  | error cause => exact .throw cause
  | ok value => exact h value rfl

theorem map {step : Build α} (h : Composed allowed accepted step) (f : α → β) :
    Composed allowed accepted (f <$> step) := by
  rw [map_eq_pure_bind]
  exact .bind h fun _ => .pure _

theorem request {inquiry : Inquiry} (h : accepted ⟨inquiry.path, inquiry.source⟩) :
    Composed allowed accepted (Build.request task inquiry) := by
  unfold Build.request
  apply bind (ofExcept _)
  intro collected
  apply bind (.requestName _ _)
  intro name
  exact bind (.enqueue h) fun _ => .pure _

theorem requestField {merged : MergedField} (h : accepted merged.place) (declared : SchemaType)
    (overridden : List MergedField) :
    Composed allowed accepted (Build.requestField task merged declared overridden) := by
  unfold Build.requestField
  apply look fun _ _ _ _ => rfl
  intro session
  split
  · exact .pure _
  · exact look (fun _ _ _ _ => rfl) fun _ => request h

theorem fieldModel {merged : MergedField} (h : accepted merged.place)
    (overridden : List MergedField) :
    Composed allowed accepted (Build.fieldModel task merged overridden) := by
  unfold Build.fieldModel
  dsimp only
  split
  · exact bind (.throw _) fun _ => .pure _
  · split
    · exact bind ((requestField h _ overridden).map _) fun _ => .pure _
    · split
      · exact bind (.throw _) fun _ => .pure _
      · exact bind (.pure _) fun _ => .pure _

theorem declareFields (bases : List (InterfaceModel × List MergedField))
    {fields : List MergedField} (h : ∀ merged ∈ fields, accepted merged.place) :
    Composed allowed accepted (Build.declareFields task bases fields) := by
  induction fields with
  | nil => exact .pure _
  | cons merged rest ih =>
      have hRest := ih fun other hOther => h other (List.mem_cons_of_mem _ hOther)
      have hDeclare : ∀ overridden, Composed allowed accepted (do
          let field ← Build.fieldModel task merged overridden
          return field :: (← Build.declareFields task bases rest)) := by
        intro overridden
        apply bind (fieldModel (h merged List.mem_cons_self) overridden)
        intro field
        exact bind hRest fun _ => .pure _
      unfold Build.declareFields
      split
      · exact hDeclare []
      · dsimp only
        split
        · exact hDeclare _
        · exact hRest

/-! What is made for a selection set makes requests for the fields in it. -/

section Making

variable {path : ModelPath} (hUnder : ∀ place : Place, place.Under path → accepted place)

include hUnder

theorem assemble (tree : FragmentTree) (bases : List (InterfaceModel × List MergedField)) :
    Composed allowed accepted (Build.assemble task path tree bases) := by
  unfold Build.assemble
  apply ofExcept_bind
  intro merged hMerged
  apply bind (declareFields bases fun field hField =>
    hUnder _ (Setting.under_of_treeFields hMerged hField))
  intro fields
  apply bind (.requestName _ _)
  intro name
  exact bind (.addInterface _ _) fun _ => .pure _

omit hUnder in
theorem synthesizeEach {trees : List FragmentTree}
    (hEach : ∀ tree ∈ trees, Composed allowed accepted (Build.synthesize task path tree)) :
    Composed allowed accepted (Build.synthesizeEach task path trees) := by
  induction trees with
  | nil =>
      rw [Build.synthesizeEach]
      exact .pure _
  | cons tree rest ih =>
      rw [Build.synthesizeEach]
      apply bind (hEach tree List.mem_cons_self)
      intro model
      apply bind (ofExcept _)
      intro fields
      exact bind (ih fun other hOther => hEach other (List.mem_cons_of_mem _ hOther))
        fun _ => .pure _

theorem synthesize (tree : FragmentTree) :
    Composed allowed accepted (Build.synthesize task path tree) := by
  induction tree using FragmentTree.induct with
  | node tree ih =>
      rw [← tree.eta, Build.synthesize]
      apply look fun _ _ _ _ => rfl
      intro session
      split
      · exact .pure _
      · exact bind (synthesizeEach ih) fun bases => assemble hUnder _ bases

theorem extraInterfaces (represented : List SchemaType) (trees : List FragmentTree) :
    Composed allowed accepted (Build.extraInterfaces task path represented trees) := by
  induction trees with
  | nil => exact .pure _
  | cons tree rest ih =>
      rw [Build.extraInterfaces]
      split
      · apply bind (synthesize hUnder tree)
        intro model
        exact bind ih fun _ => .pure _
      · exact ih

end Making

/-! From here on classes, parsers and operations are registered too. -/

section Taking

variable {request : Request}
  (hUnder : ∀ place : Place, place.Under request.path → accepted place)

include hUnder

theorem caseClass (hClasses : ∀ model, allowed (.class model)) (returnType : InterfaceModel)
    (case : Collected) (represented : List SchemaType) (type proposed : String) :
    Composed allowed accepted
      (Build.caseClass task request returnType case represented type proposed) := by
  unfold Build.caseClass
  apply bind (extraInterfaces hUnder _ _)
  intro more
  apply bind (.requestName _ _)
  intro name
  exact bind (.register (hClasses _)) fun _ => .pure _

theorem caseClasses (hClasses : ∀ model, allowed (.class model)) (returnType : InterfaceModel)
    (cases : List Collected) :
    Composed allowed accepted (Build.caseClasses task request returnType cases) := by
  induction cases with
  | nil => exact .pure _
  | cons case rest ih =>
      unfold Build.caseClasses
      apply bind (caseClass hUnder hClasses _ _ _ _ _)
      intro model
      exact bind ih fun _ => .pure _

omit hUnder in
theorem resultParser (hAll : ∀ model, allowed model) (returnType : InterfaceModel)
    (classes : List ClassModel) (discriminators : OrderedMap String) :
    Composed allowed accepted
      (Build.resultParser task request returnType classes discriminators) := by
  unfold Build.resultParser
  apply bind (.requestName _ _)
  intro name
  exact bind (.register (hAll _)) fun _ => .pure _

variable (hAll : ∀ model, allowed model)

include hAll

theorem modelObject (cases : List Collected) :
    Composed allowed accepted (Build.modelObject task request cases) := by
  unfold Build.modelObject
  split
  · apply bind (synthesize hUnder _)
    intro returnType
    exact bind (caseClass hUnder (fun _ => hAll _) _ _ _ _ _) fun model => resultParser hAll _ _ _
  · exact .throw _

theorem modelAbstract (cases : List Collected) :
    Composed allowed accepted (Build.modelAbstract task request cases) := by
  unfold Build.modelAbstract
  apply bind (synthesize hUnder _)
  intro returnType
  dsimp only
  split
  · exact bind (caseClass hUnder (fun _ => hAll _) _ _ _ _ _) fun model => resultParser hAll _ _ _
  · exact bind (caseClasses hUnder (fun _ => hAll _) _ _) fun classes => resultParser hAll _ _ _

theorem model : Composed allowed accepted (Build.model task request) := by
  unfold Build.model
  apply bind (ofExcept _)
  intro cases
  split
  · exact modelObject hUnder hAll cases
  · exact modelAbstract hUnder hAll cases
  · exact modelAbstract hUnder hAll cases
  · exact .throw _

theorem process : Composed allowed accepted (Build.process task request) := by
  unfold Build.process
  apply bind (model hUnder hAll)
  intro selected
  split
  · exact .pure _
  · apply bind (.requestName _ _)
    intro name
    exact .register (hAll _)

end Taking

theorem requestOperation {operation : Operation} (h : accepted (task.place operation)) :
    Composed allowed accepted (Build.requestOperation task operation) := by
  unfold Build.requestOperation
  dsimp only
  split
  · exact .throw _
  · exact bind (request h) fun _ => .pure _

theorem requestOperations {operations : List Operation}
    (h : ∀ operation ∈ operations, accepted (task.place operation)) :
    Composed allowed accepted (Build.requestOperations task operations) := by
  induction operations with
  | nil => exact .pure _
  | cons operation rest ih =>
      apply bind (requestOperation (h operation List.mem_cons_self))
      intro _
      exact ih fun other hOther => h other (List.mem_cons_of_mem _ hOther)

end Composed

end Build

end ResponseModels
