import ResponseModels.Model.Graph
import ResponseModels.Proofs.Data.Association

/-! Registering a model in a graph. A name that is there keeps its model; a model whose references
are all there already comes in alone. -/
namespace ResponseModels

theorem Model.eq_of_interface? {model : Model} {interface : InterfaceModel}
    (h : model.interface? = some interface) : model = .interface interface := by
  cases model with
  | interface found =>
      cases h
      rfl
  | «class» found => cases h
  | operation found => cases h
  | parser found => cases h

namespace Graph

variable {graph : Graph} {model : Model} {name : String}

theorem contains_iff (graph : Graph) (name : String) :
    graph.contains name = true ↔ ∃ model, graph.get? name = some model := by
  rw [contains, OrderedMap.contains, Option.isSome_iff_exists]
  rfl

/-- Models whose names are all there bring nothing new. -/
theorem registerQueue_of_contains {queue : List Model}
    (h : ∀ model ∈ queue, graph.contains model.name = true) :
    graph.registerQueue queue = graph := by
  induction queue with
  | nil => rw [registerQueue]
  | cons first rest ih =>
      rw [registerQueue, if_pos (h first List.mem_cons_self)]
      exact ih fun model hModel => h model (List.mem_cons_of_mem _ hModel)

theorem register_of_contains (h : graph.contains model.name = true) :
    graph.register model = graph :=
  registerQueue_of_contains (by simpa using h)

theorem get?_insert (other : String) :
    (Graph.mk (graph.models.insert name model)).get? other =
      if other = name then some model else graph.get? other :=
  OrderedMap.get?_insert _ _ _ _

theorem contains_insert {other : String} (h : graph.contains other = true) :
    (Graph.mk (graph.models.insert name model)).contains other = true := by
  obtain ⟨known, hKnown⟩ := (contains_iff _ _).mp h
  rw [contains_iff, get?_insert]
  split
  · exact ⟨model, rfl⟩
  · exact ⟨known, hKnown⟩

/-- Names stay, whatever is registered. -/
theorem contains_registerQueue {queue : List Model} (h : graph.contains name = true) :
    (graph.registerQueue queue).contains name = true := by
  fun_induction registerQueue graph queue with
  | case1 => exact h
  | case2 _ _ _ _ ih => exact ih h
  | case3 _ _ _ _ ih => exact ih (contains_insert h)

theorem contains_register_self (graph : Graph) (model : Model) :
    (graph.register model).contains model.name = true := by
  cases hKnown : graph.contains model.name with
  | true => exact contains_registerQueue hKnown
  | false =>
      rw [register, registerQueue, if_neg (by simp [hKnown])]
      apply contains_registerQueue
      rw [contains_iff, get?_insert, if_pos rfl]
      exact ⟨model, rfl⟩

theorem register_of_new (hNew : graph.contains model.name = false)
    (hReferences : ∀ reference ∈ model.references, graph.contains reference.name = true) :
    graph.register model = ⟨graph.models.insert model.name model⟩ := by
  rw [register, registerQueue, if_neg (by simp [hNew]), List.nil_append]
  exact registerQueue_of_contains fun reference hReference =>
    contains_insert (hReferences reference hReference)

/-- What stands under a name after registering a model whose references are there. -/
theorem get?_register (hReferences : ∀ reference ∈ model.references,
      graph.contains reference.name = true) (other : String) :
    (graph.register model).get? other =
      if other = model.name ∧ graph.contains model.name = false then some model
      else graph.get? other := by
  cases hKnown : graph.contains model.name with
  | true => rw [register_of_contains hKnown, if_neg (by simp)]
  | false =>
      rw [register_of_new hKnown hReferences, get?_insert]
      simp

/-- Registered models stay. -/
theorem get?_register_of_some (hReferences : ∀ reference ∈ model.references,
      graph.contains reference.name = true) {other : String} {known : Model}
    (h : graph.get? other = some known) : (graph.register model).get? other = some known := by
  rw [get?_register hReferences, if_neg, h]
  rintro ⟨rfl, hNew⟩
  have hContains := (contains_iff _ _).mpr ⟨known, h⟩
  rw [hNew] at hContains
  cases hContains

/-- After registering a model its name is there, with the model or with an earlier one. -/
theorem get?_register_self (hReferences : ∀ reference ∈ model.references,
      graph.contains reference.name = true) :
    ∃ known, (graph.register model).get? model.name = some known ∧
      (known = model ∨ graph.get? model.name = some known) := by
  rw [get?_register hReferences]
  split
  · exact ⟨model, rfl, .inl rfl⟩
  · rename_i hKnown
    have hContains : graph.contains model.name = true := by simpa using hKnown
    obtain ⟨known, hKnown⟩ := (contains_iff _ _).mp hContains
    exact ⟨known, hKnown, .inr hKnown⟩

/-- Models stand under their own names, whatever is registered. -/
theorem keyed_registerQueue {queue : List Model} (h : graph.models.Keyed Model.name) :
    (graph.registerQueue queue).models.Keyed Model.name := by
  fun_induction registerQueue graph queue with
  | case1 => exact h
  | case2 _ _ _ _ ih => exact ih h
  | case3 _ _ _ _ ih => exact ih (h.insert rfl)

/-- The interface under a name. -/
def interface? (graph : Graph) (name : String) : Option InterfaceModel :=
  (graph.get? name).bind Model.interface?

theorem interface?_eq_some_iff {interface : InterfaceModel} :
    graph.interface? name = some interface ↔ graph.get? name = some (.interface interface) := by
  rw [interface?, Option.bind_eq_some_iff]
  constructor
  · rintro ⟨found, hFound, hInterface⟩
    rw [hFound, Model.eq_of_interface? hInterface]
  · intro hFound
    exact ⟨_, hFound, rfl⟩

end Graph

end ResponseModels
