import ResponseModels.Proofs.FieldModels
import ResponseModels.Proofs.Run.TreeRecursion
import ResponseModels.Proofs.Run.Worklist
import ResponseModels.Proofs.Schema.Implementing
import ResponseModels.Proofs.Selection.Unfolding

/-! Compiling comes to an end, also with a schema that nobody has checked. The worklist is given
without a bound on how many requests are taken up, collecting without a bound on how deep spreads
are followed, the search for interfaces without a bound on how far it goes, and what is done with
trees without a bound on how deep they are; each comes to an end with the outcome that it has within
the bound. -/
namespace ResponseModels

open GraphQL

/-- Asking for the operations and working off the requests, as many as are counted. -/
inductive Build.Runs (task : Task) (names : Names) (operations : List Operation) :
    Nat → Except ModelError Unit → Session → Prop
  | refused {cause : ModelError} {last : Session} :
    (requestOperations task operations).run (.initial names) = (.error cause, last) →
    Runs task names operations 0 (.error cause) last
  | worked {asked last : Session} {steps : Nat} {outcome : Except ModelError Unit} :
    (requestOperations task operations).Yields (.initial names) () asked →
    WorksOff task asked steps outcome last → Runs task names operations steps outcome last

/-- All that is done to compile operations comes to an end. -/
structure Terminates (task : Task) (names : Names) (operations : List Operation) : Prop where
  /-- After finitely many requests one has failed or none is left. -/
  worklist : ∃ steps outcome last, Build.Runs task names operations steps outcome last ∧
    (outcome = .ok () → last.pending = []) ∧
    compileOperations task names operations =
      (outcome.map fun _ => last.graph, last.names)
  /-- Spreads are followed to the end, whatever is collected. -/
  collecting : ∀ scope type selections path, ∃ outcome,
    task.Gathers type path scope ⟨[], []⟩ selections outcome ∧
    task.collectIn scope type selections path =
      outcome.map fun gathered => ⟨type, gathered.fields, gathered.fragments, selections⟩
  /-- Interfaces are followed to the end, whatever is looked for. -/
  implementing : ∀ type name,
    task.schema.Searches name type.interfaces (task.schema.implements type name)
  /-- Subtrees are followed to the end, whichever tree's fields are merged. -/
  flattening : ∀ path (tree : FragmentTree), ∃ outcome,
    task.Flattens path tree.condition tree.children [] [] tree.selections outcome ∧
    task.treeFields path tree = outcome
  /-- Bases are made to the end, whichever tree's interface is made. -/
  synthesizing : ∀ path tree session, ∃ outcome after,
    Build.Synthesizes task path session tree outcome after ∧
    (Build.synthesize task path tree).run session = (outcome, after)
  /-- Trees pass on to a fragment in them until one does not. -/
  hoisting : ∀ target (tree : FragmentTree),
    Relation.ReflTransGen (FragmentTree.PassesTo target) tree (tree.hoist target) ∧
      ∀ child, ¬ (tree.hoist target).PassesTo target child

/-- The rounds of compiling do what working off the requests does. -/
theorem exists_runs_of_compileOperations {task : Task} (hDocument : task.document.Accepted)
    (hPositions : task.document.DistinctPositions) (names : Names) {operations : List Operation}
    (hOperations : operations ⊆ task.document.operations) :
    ∃ steps outcome last, Build.Runs task names operations steps outcome last ∧
      (outcome = .ok () → last.pending = []) ∧
      compileOperations task names operations =
        (outcome.map fun _ => last.graph, last.names) := by
  unfold compileOperations Build.compile
  rw [Build.run_bind]
  rcases hAsk : (Build.requestOperations task operations).run (.initial names) with
    ⟨asking, asked⟩
  cases asking with
  | error cause => exact ⟨0, .error cause, asked, .refused hAsk, (fun hOk => by cases hOk), rfl⟩
  | ok _ =>
      rcases hDrain : (Build.drain task (Nat.pow 2 task.document.reachedCount)).run asked with
        ⟨outcome, drained⟩
      obtain ⟨steps, last, hWorksOff, hNames, hSame⟩ :=
        Build.exists_worksOff_of_drain hDrain fun hOutcome => by
          rw [hOutcome] at hDrain
          exact pending_of_drain hDocument hPositions hOperations hAsk hDrain
      refine ⟨steps, outcome, last, .worked hAsk hWorksOff, hWorksOff.pending_eq_nil, ?_⟩
      dsimp only
      rw [Build.run_bind, hDrain]
      cases outcome with
      | error cause => rw [hNames]; rfl
      | ok _ => rw [hSame rfl]; rfl

/-- Operations of an accepted document are compiled in finitely many steps, against any schema whose
interfaces do not implement themselves. -/
theorem compiling_terminates {task : Task} (hSchema : task.schema.Acyclic)
    (hDocument : task.document.Accepted) (hPositions : task.document.DistinctPositions)
    (names : Names) {operations : List Operation}
    (hOperations : operations ⊆ task.document.operations) : Terminates task names operations where
  worklist := exists_runs_of_compileOperations hDocument hPositions names hOperations
  collecting := Setting.exists_gathers_of_collectIn hDocument
  implementing := hSchema.searches
  flattening _ tree := ⟨_, Setting.flattens_flattenInto tree [], rfl⟩
  synthesizing _ _ _ := ⟨_, _, Build.synthesizes_of_run rfl, rfl⟩
  hoisting target tree :=
    ⟨FragmentTree.reflTransGen_hoist target tree, FragmentTree.not_passesTo_hoist target tree⟩

/-- The types of friends as they may come from a file: nodes claim to have a `me`, which users and
bots do not have, and those who have one claim to be things, which are not defined. -/
def looseTypes : OrderedMap SchemaType :=
  ⟨friendTask.schema.types.entries.map fun entry =>
    match entry.2 with
    | .interface type =>
      (entry.1, .interface { type with
        interfaces := [⟨if type.name = "Node" then "HasMe" else "Thing", .builtIn⟩] })
    | _ => entry⟩

def looseTask : Task :=
  { friendTask with schema := { friendTask.schema with types := looseTypes } }

/-- Two queries that share fragments are compiled against these types, the first of them asked for
twice, and nothing is left waiting. -/
theorem loose_friends_worked_off :
    let operations := looseTask.document.operations ++ looseTask.document.operations.take 1
    looseTask.schema.Acyclic ∧ Terminates looseTask (.initial 9) operations ∧
      ∃ steps last, Build.Runs looseTask (.initial 9) operations steps (.ok ()) last ∧
        last.pending = [] ∧ last.graph.size = 32 := by
  intro operations
  have hStart : Startable friendTask (.initial 9) friendTask.document.operations :=
    .ofItems (Option.some_get _).symm (by decide +kernel) 9
  have hSchema : looseTask.schema.Acyclic :=
    Schema.acyclic_of_rank (fun name => ["Thing", "HasMe", "Node"].idxOf name) (by decide +kernel)
  have hOperations : operations ⊆ looseTask.document.operations :=
    List.append_subset.mpr ⟨List.Subset.refl _, List.take_subset 1 _⟩
  have hTerminates : Terminates looseTask (.initial 9) operations :=
    compiling_terminates hSchema hStart.setting.document hStart.setting.positions (.initial 9)
      hOperations
  have hRun : (compileOperations looseTask (.initial 9) operations).1.toOption.map Graph.size =
      some 32 := by
    decide +kernel
  refine ⟨hSchema, hTerminates, ?_⟩
  obtain ⟨steps, outcome, last, hRuns, hPending, hSame⟩ := hTerminates.worklist
  rw [hSame] at hRun
  cases outcome with
  | error cause => cases hRun
  | ok _ => exact ⟨steps, last, hRuns, hPending rfl, Option.some.inj hRun⟩

end ResponseModels
