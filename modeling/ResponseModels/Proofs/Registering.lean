import ResponseModels.Proofs.Model.Graph
import Mathlib.Data.List.Induction

/-! Registering any models one after the other, whatever they refer to and however their names
clash. What is there stays where it is. What is new comes in layer by layer, and each name is taken
by the first model that bears it; the models referred to are then all there by their names, though
a name that was there already is not followed again. -/
namespace ResponseModels

namespace Model

theorem weightOf_flatMap_references_add_length_le (models : List Model) :
    weightOf (models.flatMap references) + models.length ≤ weightOf models := by
  induction models with
  | nil => exact Nat.le_refl _
  | cons model rest ih =>
      have hLess := model.weightOf_references_lt
      rw [List.flatMap_cons, weightOf_append, List.length_cons, weightOf]
      omega

/-- The models of a list whose names are new, each name only where it comes first. -/
def newcomers (known : List String) : List Model → List Model
  | [] => []
  | model :: rest =>
    if model.name ∈ known then newcomers known rest
    else model :: newcomers (known ++ [model.name]) rest

theorem weightOf_newcomers_le (known : List String) (models : List Model) :
    weightOf (newcomers known models) ≤ weightOf models := by
  fun_induction newcomers known models with
  | case1 => exact Nat.le_refl _
  | case2 known model rest _ ih =>
      rw [weightOf]
      omega
  | case3 known model rest _ ih =>
      rw [weightOf, weightOf]
      omega

/-- The new models among a layer and among all that they lead to, breadth first: the newcomers of
the layer in their order, then those of the layer of models that they refer to, and so on. -/
def layered (known : List String) (layer : List Model) : List Model :=
  if newcomers known layer = [] then []
  else
    newcomers known layer ++ layered (known ++ (newcomers known layer).map name)
      ((newcomers known layer).flatMap references)
termination_by weightOf layer
decreasing_by
  rename_i hSome
  have hLength := List.length_pos_of_ne_nil hSome
  have hLayer := weightOf_newcomers_le known layer
  have hNext := weightOf_flatMap_references_add_length_le (newcomers known layer)
  omega

end Model

namespace Graph

variable {graph : Graph} {model : Model} {queue : List Model}

/-- The graph that registering the models one after the other comes to. -/
def ofModels (models : List Model) : Graph := models.foldl register .empty

/-- The loop of registering, in as many turns as are counted: a model at the head of the queue is
dropped if its name is there, and else comes in and puts its references behind the others. -/
inductive Works : Graph → List Model → Nat → Graph → Prop
  | done {graph : Graph} : Works graph [] 0 graph
  | known {graph after : Graph} {model : Model} {rest : List Model} {turns : Nat} :
    graph.contains model.name = true → Works graph rest turns after →
    Works graph (model :: rest) (turns + 1) after
  | new {graph after : Graph} {model : Model} {rest : List Model} {turns : Nat} :
    graph.contains model.name = false →
    Works ⟨graph.models.insert model.name model⟩ (rest ++ model.references) turns after →
    Works graph (model :: rest) (turns + 1) after

/-- The loop ends, after no more turns than the queue weighs. -/
theorem exists_works_registerQueue (graph : Graph) (queue : List Model) :
    ∃ turns ≤ Model.weightOf queue, Works graph queue turns (graph.registerQueue queue) := by
  fun_induction registerQueue graph queue with
  | case1 graph => exact ⟨0, Nat.le_refl _, .done⟩
  | case2 graph model rest hKnown ih =>
      obtain ⟨turns, hTurns, hWorks⟩ := ih
      have hHeavy := model.weightOf_references_lt
      refine ⟨turns + 1, ?_, .known hKnown hWorks⟩
      rw [Model.weightOf]
      omega
  | case3 graph model rest hNew ih =>
      obtain ⟨turns, hTurns, hWorks⟩ := ih
      have hHeavy := model.weightOf_references_lt
      refine ⟨turns + 1, ?_, .new (by simpa using hNew) hWorks⟩
      rw [Model.weightOf_append] at hTurns
      rw [Model.weightOf]
      omega

/-- The graph with further models behind its own, under their names. -/
def extended (graph : Graph) (models : List Model) : Graph :=
  ⟨⟨graph.models.entries ++ models.map fun model => (model.name, model)⟩⟩

theorem extended_nil (graph : Graph) : graph.extended [] = graph := by
  simp [extended]

theorem extended_extended (graph : Graph) (models more : List Model) :
    (graph.extended models).extended more = graph.extended (models ++ more) := by
  simp [extended]

theorem keys_extended (graph : Graph) (models : List Model) :
    (graph.extended models).models.keys = graph.models.keys ++ models.map Model.name := by
  simp [extended, OrderedMap.keys, Function.comp_def]

theorem insert_eq_extended (hNew : model.name ∉ graph.models.keys) :
    Graph.mk (graph.models.insert model.name model) = graph.extended [model] := by
  have hAbsent : ¬ graph.models.contains model.name = true := by
    rwa [OrderedMap.contains_eq_true_iff]
  rw [OrderedMap.insert, if_neg hAbsent]
  rfl

/-- The front of a queue is worked off: its newcomers come in, and what they refer to waits behind
the rest. -/
theorem registerQueue_append (graph : Graph) (front back : List Model) :
    graph.registerQueue (front ++ back) =
      (graph.extended (Model.newcomers graph.models.keys front)).registerQueue
        (back ++ (Model.newcomers graph.models.keys front).flatMap Model.references) := by
  induction front generalizing graph back with
  | nil => simp [Model.newcomers, extended_nil]
  | cons model rest ih =>
      rw [List.cons_append, registerQueue, Model.newcomers]
      by_cases hKnown : model.name ∈ graph.models.keys
      · have hContains : graph.contains model.name = true :=
          (OrderedMap.contains_eq_true_iff _ _).mpr hKnown
        rw [if_pos hContains, if_pos hKnown, ih]
      · have hAbsent : ¬ graph.contains model.name = true := by
          rwa [contains, OrderedMap.contains_eq_true_iff]
        rw [if_neg hAbsent, if_neg hKnown, insert_eq_extended hKnown, List.append_assoc, ih,
          keys_extended, extended_extended, List.flatMap_cons, List.append_assoc]
        rfl

/-- Registering a queue brings in its layers. -/
theorem registerQueue_eq_extended (graph : Graph) (queue : List Model) :
    graph.registerQueue queue = graph.extended (Model.layered graph.models.keys queue) := by
  generalize hKeys : graph.models.keys = known
  fun_induction Model.layered known queue generalizing graph with
  | case1 known layer hNone =>
      have hLayer := graph.registerQueue_append layer []
      rw [hKeys, hNone, List.append_nil] at hLayer
      rw [hLayer, extended_nil]
      exact registerQueue_of_contains nofun
  | case2 known layer hSome ih =>
      have hLayer := graph.registerQueue_append layer []
      rw [hKeys, List.append_nil, List.nil_append] at hLayer
      rw [hLayer, ih _ (by rw [keys_extended, hKeys]), extended_extended]

/-- Whatever a registered model refers to is there by its name, or waits in the queue. -/
def ClosedUpTo (graph : Graph) (queue : List Model) : Prop :=
  ∀ model ∈ graph.models.values, ∀ reference ∈ model.references,
    graph.contains reference.name = true ∨ ∃ waiting ∈ queue, waiting.name = reference.name

theorem ClosedUpTo.mono {more : List Model} (h : graph.ClosedUpTo queue) (hSubset : queue ⊆ more) :
    graph.ClosedUpTo more := by
  intro model hModel reference hReference
  refine (h model hModel reference hReference).imp_right ?_
  rintro ⟨waiting, hWaiting, hName⟩
  exact ⟨waiting, hSubset hWaiting, hName⟩

/-- A model whose name is there need not wait. -/
theorem ClosedUpTo.drop (h : graph.ClosedUpTo (model :: queue))
    (hKnown : graph.contains model.name = true) : graph.ClosedUpTo queue := by
  intro registered hRegistered reference hReference
  rcases h registered hRegistered reference hReference with hThere | ⟨waiting, hWaiting, hName⟩
  · exact .inl hThere
  · rcases List.mem_cons.mp hWaiting with rfl | hWaiting
    · exact .inl (hName ▸ hKnown)
    · exact .inr ⟨waiting, hWaiting, hName⟩

/-- A model comes in and lets its references wait. -/
theorem ClosedUpTo.take (h : graph.ClosedUpTo (model :: queue)) :
    (Graph.mk (graph.models.insert model.name model)).ClosedUpTo (queue ++ model.references) := by
  have hSelf : (Graph.mk (graph.models.insert model.name model)).contains model.name = true := by
    rw [contains_iff, get?_insert, if_pos rfl]
    exact ⟨model, rfl⟩
  refine ClosedUpTo.drop (fun registered hRegistered reference hReference => ?_) hSelf
  rcases OrderedMap.mem_values_insert hRegistered with rfl | hOld
  · exact .inr ⟨reference, List.mem_cons_of_mem _ (List.mem_append_right _ hReference), rfl⟩
  · rcases h registered hOld reference hReference with hThere | ⟨waiting, hWaiting, hName⟩
    · exact .inl (contains_insert hThere)
    · exact .inr ⟨waiting, List.mem_append_left model.references hWaiting, hName⟩

theorem closed_registerQueue (h : graph.ClosedUpTo queue) :
    (graph.registerQueue queue).ClosedUpTo [] := by
  fun_induction registerQueue graph queue with
  | case1 => exact h
  | case2 _ _ _ hKnown ih => exact ih (h.drop hKnown)
  | case3 _ _ _ _ ih => exact ih h.take

/-- What registering any models keeps to: the models stand under their own names, with what they
refer to, and registering one of them again changes nothing. -/
structure Complete (graph : Graph) (models : List Model) : Prop where
  keyed : graph.models.Keyed Model.name
  closed : graph.ClosedUpTo []
  contains : ∀ model ∈ models, graph.contains model.name = true

theorem complete_register {models : List Model} (h : graph.Complete models) (model : Model) :
    (graph.register model).Complete (models ++ [model]) where
  keyed := keyed_registerQueue h.keyed
  closed := closed_registerQueue (h.closed.mono (List.nil_subset _))
  contains := by
    intro other hOther
    rcases List.mem_append.mp hOther with hOther | hOther
    · exact contains_registerQueue (h.contains other hOther)
    · rw [List.mem_singleton.mp hOther]
      exact contains_register_self graph model

theorem complete_ofModels (models : List Model) : (ofModels models).Complete models := by
  have hStart : Graph.empty.Complete [] :=
    ⟨.empty _, fun _ hModel => absurd hModel List.not_mem_nil, nofun⟩
  induction models using List.reverseRecOn with
  | nil => exact hStart
  | append_singleton models model ih =>
      rw [ofModels, List.foldl_append]
      exact complete_register ih model

end Graph

/-- One more model is registered after any others. The loop ends; what was there stays in its
place; what is new is appended breadth first, each name once; all references are there by their
names; and none of the models registered so far would bring anything if it came again. -/
theorem registration_closes_and_appends (models : List Model) (model : Model) :
    let before := Graph.ofModels models
    let after := before.register model
    (∃ turns ≤ model.weight, before.Works [model] turns after) ∧
      after.models.entries = before.models.entries ++
        (Model.layered before.models.keys [model]).map (fun new => (new.name, new)) ∧
      after.models.keys.Nodup ∧
      (∀ registered ∈ after.models.values, ∀ reference ∈ registered.references,
        after.contains reference.name = true) ∧
      ∀ known ∈ models ++ [model], after.register known = after := by
  intro before after
  have hComplete : after.Complete (models ++ [model]) :=
    Graph.complete_register (Graph.complete_ofModels models) model
  refine ⟨?_, ?_, hComplete.keyed.nodup, ?_, ?_⟩
  · obtain ⟨turns, hTurns, hWorks⟩ := before.exists_works_registerQueue [model]
    exact ⟨turns, by simpa [Model.weightOf] using hTurns, hWorks⟩
  · exact congrArg (fun graph => graph.models.entries)
      (before.registerQueue_eq_extended [model])
  · intro registered hRegistered reference hReference
    obtain hThere | ⟨_, hWaiting, _⟩ :=
      hComplete.closed registered hRegistered reference hReference
    · exact hThere
    · cases hWaiting
  · exact fun known hKnown => Graph.register_of_contains (hComplete.contains known hKnown)

end ResponseModels
