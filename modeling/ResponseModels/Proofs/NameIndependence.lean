import ResponseModels.Proofs.Run.SideBySide
import Mathlib.SetTheory.Cardinal.Arithmetic

/-! Names have no part in the shape of a graph. Whatever names were given before, and to whichever
documents, the graphs that a document is compiled to differ by a renaming only, and so does what
stops a run, as long as there are names left. -/
namespace ResponseModels

open GraphQL

/-- Names that are each given one to one correspond by a permutation of all names. -/
theorem Names.Distinct.exists_matches {names names' : Names} (h : names.Distinct)
    (h' : names'.Distinct) : ∃ newName : Equiv.Perm String, names.Matches newName names' := by
  let Shared : Set String := { name | ∃ key name',
    names.nameOf? key = some name ∧ names'.nameOf? key = some name' }
  choose keyOf other hName hOther using fun name : Shared => name.2
  have hInjective : Function.Injective other := by
    intro first second hSame
    have hPlain : (keyOf first).plain = (keyOf second).plain :=
      h'.plain_eq (hOther first) (hSame ▸ hOther second)
    have hFirst := hName first
    rw [nameOf?, hPlain] at hFirst
    exact Subtype.ext (Option.some.inj (hFirst.symm.trans (hName second)))
  have hFinite : Shared.Finite := by
    refine (names.assigned.map Prod.snd).finite_toSet.subset ?_
    rintro name ⟨key, _, hKey, _⟩
    exact List.mem_map.mpr ⟨_, Association.mem_of_lookup hKey, rfl⟩
  have hFew : Cardinal.mk Shared < Cardinal.mk String :=
    hFinite.lt_aleph0.trans_le (Cardinal.infinite_iff.mp inferInstance)
  obtain ⟨newName, hNew⟩ :=
    Cardinal.extend_function_of_lt ⟨other, hInjective⟩ hFew ⟨Equiv.refl String⟩
  refine ⟨newName, fun key name name' hKey hKey' => ?_⟩
  let shared : Shared := ⟨name, key, name', hKey, hKey'⟩
  have hPlain : (keyOf shared).plain = key.plain := h.plain_eq (hName shared) hKey
  have hSame := hOther shared
  rw [nameOf?, hPlain] at hSame
  rw [hNew shared]
  exact Option.some.inj (hSame.symm.trans hKey')

/-- Compiled with two stocks of names, the same operations lead to runs side by side. -/
theorem exists_parallel_compile (task : Task) {names names' : Names} (hNames : names.Reached)
    (hNames' : names'.Reached) (operations : List Operation) :
    ∃ newName : Equiv.Perm String, Build.Parallel newName (Graph.rename newName)
      ((Build.compile task operations).run (.initial names))
      ((Build.compile task operations).run (.initial names')) := by
  have hAsks : Build.AsksNames (Build.compile task operations) :=
    (Build.agrees_compile Function.injective_id operations).asks
  obtain ⟨calls, hCalls⟩ := hAsks (.initial names)
  obtain ⟨calls', hCalls'⟩ := hAsks (.initial names')
  -- The renaming is read off the names that both runs end with.
  obtain ⟨newName, hMatches⟩ :=
    (hNames.after calls).distinct.exists_matches (hNames'.after calls').distinct
  refine ⟨newName, (Build.agrees_compile newName.injective operations).parallel
    (.initial names) names' ?_⟩
  change Names.Matches newName _ ((Build.compile task operations).run (.initial names')).2.names
  rw [hCalls, hCalls']
  exact hMatches

/-- Graphs of one document are the same up to the names of their models, whatever names were taken
before. What stops one run, other than that no name is left, stops the other, unless that is out of
names. -/
theorem graphs_alike_up_to_names (task : Task) {names names' : Names} (hNames : names.Reached)
    (hNames' : names'.Reached) :
    (∀ graph graph', (compile task names).1 = .ok graph → (compile task names').1 = .ok graph' →
      ∃ newName : Equiv.Perm String,
        graph'.models.keys = graph.models.keys.map newName ∧ graph' = graph.rename newName) ∧
    ∀ cause, (compile task names).1 = .error cause → ¬ cause.OutOfNames →
      ∃ cause', (compile task names').1 = .error cause' ∧
        (cause' = cause ∨ cause'.OutOfNames) := by
  obtain ⟨newName, hParallel⟩ :=
    exists_parallel_compile task hNames hNames' task.document.operations
  refine ⟨fun graph graph' hGraph hGraph' => ⟨newName, ?_⟩,
    fun cause hCause hNamed => hParallel.exists_error hCause hNamed⟩
  obtain rfl := hParallel.value_eq hGraph hGraph'
  exact ⟨by simp [Graph.rename, OrderedMap.mapEntries, OrderedMap.keys], rfl⟩

/-- The queries of `friendTask` against a schema whose root type is no object type. -/
def rootlessTask : Task :=
  { friendTask with schema := { friendTask.schema with query := ⟨"Node", .schema⟩ } }

/-- Two queries that share fragments are compiled with no name taken, and with one taken that they
propose themselves. Without a root type they are refused whether names are left or not. -/
theorem friends_alike_up_to_names :
    let taken := (Names.initial 0).after [(.leaf (.resultParser []), "Node")]
    let others := (Names.initial 9).after [(.leaf (.operation .schema), "IMe")]
    (∃ graph graph', (compile friendTask (.initial 9)).1 = .ok graph ∧
      (compile friendTask others).1 = .ok graph' ∧ graph ≠ graph' ∧ graph.size = 32 ∧
      ∃ newName : Equiv.Perm String,
        graph'.models.keys = graph.models.keys.map newName ∧ graph' = graph.rename newName) ∧
    ∃ cause cause', (compile rootlessTask others).1 = .error cause ∧ ¬ cause.OutOfNames ∧
      (compile rootlessTask taken).1 = .error cause' ∧
      (cause' = cause ∨ cause'.OutOfNames) := by
  intro taken others
  have hNames : (Names.initial 9).Reached := .initial 9
  have hOthers : others.Reached := hNames.after _
  have hTaken : taken.Reached := (Names.Reached.initial 0).after _
  have hFirst : (compile friendTask (.initial 9)).1.toOption.map
      (fun graph => (graph.size, graph.contains "IMe")) = some (32, true) := by
    decide +kernel
  have hSecond : (compile friendTask others).1.toOption.map (·.contains "IMe") = some false := by
    decide +kernel
  have hRefused : (compile rootlessTask others).1 = .error (.missingRoot .query "First"
      (rootlessTask.document.locate ⟨1, 1⟩)) := by
    decide +kernel
  obtain ⟨graph, hGraph, hShape⟩ := Option.map_eq_some_iff.mp hFirst
  obtain ⟨graph', hGraph', hMissing⟩ := Option.map_eq_some_iff.mp hSecond
  obtain ⟨hSize, hHas⟩ := Prod.mk.inj hShape
  rw [Outcome.toOption_eq_some_iff] at hGraph hGraph'
  constructor
  · refine ⟨graph, graph', hGraph, hGraph', ?_, hSize,
      (graphs_alike_up_to_names friendTask hNames hOthers).1 graph graph' hGraph hGraph'⟩
    rintro rfl
    rw [hHas] at hMissing
    cases hMissing
  · obtain ⟨cause', hCause'⟩ :=
      (graphs_alike_up_to_names rootlessTask hOthers hTaken).2 _ hRefused id
    exact ⟨_, cause', hRefused, id, hCause'⟩

end ResponseModels
