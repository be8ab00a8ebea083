import ResponseModels.Proofs.Model.Composed
import ResponseModels.Proofs.FieldModels
import ResponseModels.Proofs.NamingLaw

/-! Compiling a document once more. A step that is taken again, when every key that the first time
left with a name has that name already, goes the same way: each name it asks for is known and comes
out as before, so what is chosen by comparing names is chosen as before too, and no name is added.
Names only ever grow, whoever asks for them in the meantime. -/
namespace ResponseModels

open GraphQL

/-- Every key that has a name in the first names has the same name in the second. -/
def Names.KeptBy (names later : Names) : Prop :=
  ∀ key name, names.nameOf? key = some name → later.nameOf? key = some name

theorem Names.KeptBy.trans {first second third : Names} (h : first.KeptBy second)
    (h' : second.KeptBy third) : first.KeptBy third :=
  fun key name hName => h' key name (h key name hName)

namespace Build

variable {α β : Type} {task : Task}

/-- Taken again from where it started, but with names that keep those it ended with, the step
yields the same value and does the same, and adds no name. -/
def Replays (step : Build α) : Prop :=
  ∀ before value after, step.Yields before value after →
    before.names.KeptBy after.names ∧
    ∀ later, after.names.KeptBy later →
      step.Yields { before with names := later } value { after with names := later }

namespace Replays

theorem pure (value : α) : Replays (Pure.pure value : Build α) := by
  intro before result after h
  rw [yields_pure] at h
  obtain ⟨rfl, rfl⟩ := h
  exact ⟨fun _ _ hName => hName, fun later _ => (yields_pure _ _).mpr ⟨rfl, rfl⟩⟩

theorem throw (cause : ModelError) : Replays (MonadExcept.throw cause : Build α) :=
  fun _ _ _ h => absurd h (yields_throw _ _)

theorem bind {step : Build α} {next : α → Build β} (hStep : Replays step)
    (hNext : ∀ value, Replays (next value)) : Replays (step >>= next) := by
  intro before result after h
  rw [yields_bind] at h
  obtain ⟨value, middle, hFirst, hSecond⟩ := h
  obtain ⟨hBefore, hFirst⟩ := hStep before value middle hFirst
  obtain ⟨hMiddle, hSecond⟩ := hNext value middle result after hSecond
  refine ⟨hBefore.trans hMiddle, fun later hLater => ?_⟩
  rw [yields_bind]
  exact ⟨value, _, hFirst later (hMiddle.trans hLater), hSecond later hLater⟩

/-- A look at anything but the names sees the same as the first time. -/
theorem look {next : Session → Build α}
    (hBlind : ∀ session names, next { session with names := names } = next session)
    (hNext : ∀ session, Replays (next session)) : Replays (get >>= next) := by
  intro before result after h
  rw [yields_get_bind] at h
  obtain ⟨hKept, hAgain⟩ := hNext before before result after h
  refine ⟨hKept, fun later hLater => ?_⟩
  rw [yields_get_bind, hBlind]
  exact hAgain later hLater

theorem ofModify {change : Session → Session}
    (hChange : ∀ session names,
      change { session with names := names } = { change session with names := names }) :
    Replays (modify change) := by
  intro before result after h
  rw [yields_modify] at h
  subst h
  have hNames : (change before).names = before.names := by
    have hSame := congrArg Session.names (hChange before before.names)
    exact hSame
  refine ⟨fun key name hName => hNames ▸ hName, fun later _ => ?_⟩
  exact (yields_modify _ _).mpr (hChange before later).symm

theorem requestName (key : OriginKey) (proposed : String) :
    Replays (Build.requestName key proposed) := by
  intro before name after h
  rw [yields_requestName] at h
  obtain ⟨hName, rfl⟩ := h
  refine ⟨fun _ _ => Names.nameOf?_request_of_some, fun later hLater => ?_⟩
  have hKnown : later.nameOf? key = some name := hLater key name (Names.nameOf?_request hName)
  rw [yields_requestName, Names.request_of_known hKnown]
  exact ⟨rfl, rfl⟩

end Replays

theorem Composed.replays {allowed : Model → Prop} {accepted : Place → Prop} {step : Build α}
    (h : Composed allowed accepted step) : Replays step := by
  induction h with
  | pure value => exact .pure value
  | throw cause => exact .throw cause
  | bind _ _ ihStep ihNext => exact .bind ihStep ihNext
  | look hBlind _ ih => exact .look (fun session names => hBlind session names _ _) ih
  | requestName key proposed => exact .requestName key proposed
  | register _ => exact .ofModify fun _ _ => rfl
  | addInterface key model => exact .ofModify fun _ _ => rfl
  | enqueue _ => exact .ofModify fun _ _ => rfl

theorem replays_processAll (requests : List Request) : Replays (processAll task requests) := by
  induction requests with
  | nil => exact .pure _
  | cons request rest ih =>
      have hProcess : Composed (fun _ => True) (fun _ => True) (process task request) :=
        .process (fun _ _ => trivial) fun _ => trivial
      exact .bind hProcess.replays fun _ => ih

theorem replays_drain (rounds : Nat) : Replays (drain task rounds) := by
  induction rounds with
  | zero => exact .pure _
  | succ rounds ih =>
      unfold drain
      apply Replays.look fun _ _ => rfl
      intro session
      split
      · exact .pure _
      · apply Replays.bind (.ofModify fun _ _ => rfl)
        intro _
        exact .bind (replays_processAll _) fun _ => ih

theorem replays_compile (operations : List Operation) :
    Replays (Build.compile task operations) := by
  have hAsk : Composed (fun _ => True) (fun _ => True) (requestOperations task operations) :=
    .requestOperations fun _ _ => trivial
  unfold Build.compile
  apply Replays.bind hAsk.replays
  intro _
  apply Replays.bind (replays_drain _)
  intro _
  exact .look (fun _ _ => rfl) fun _ => .pure _

end Build

/-- Operations that were compiled are compiled to the same graph by names that keep those that the
first time left, and these stay as they are. -/
theorem compileOperations_of_keptBy {task : Task} {names later : Names}
    {operations : List Operation} {graph : Graph}
    (hCompile : (compileOperations task names operations).1 = .ok graph)
    (hLater : (compileOperations task names operations).2.KeptBy later) :
    compileOperations task later operations = (.ok graph, later) := by
  unfold compileOperations at hCompile hLater ⊢
  rcases hRun : (Build.compile task operations).run (Session.initial names) with
    ⟨outcome, session⟩
  rw [hRun] at hCompile hLater
  obtain rfl : outcome = .ok graph := hCompile
  obtain ⟨_, hAgain⟩ := Build.replays_compile operations _ _ _ hRun
  have hSecond : (Build.compile task operations).run (Session.initial later) =
      (.ok graph, { session with names := later }) := hAgain later hLater
  rw [hSecond]

/-- A document that was compiled is compiled to the same graph at any later time, whatever names
were asked for in between, and the names stay as they are. -/
theorem recompiling_stable (task : Task) (names : Names) (between : List (OriginKey × String))
    {graph : Graph} (hCompile : (compile task names).1 = .ok graph) :
    compile task ((compile task names).2.after between) =
      (.ok graph, (compile task names).2.after between) :=
  compileOperations_of_keptBy hCompile fun _ _ hName => Names.nameOf?_after hName between

/-- Two queries that share fragments are compiled with a name taken that they propose themselves,
and once more after another document was given the next two names that they would have come to. -/
theorem friends_recompiled :
    let names := (Names.initial 9).after [(.leaf (.operation .schema), "IMe")]
    let between := [(.leaf (.selection []), "IMe"), (.leaf (.resultParser []), "IFriend")]
    ∃ graph, (compile friendTask names).1 = .ok graph ∧ graph.size = 32 ∧
      compile friendTask ((compile friendTask names).2.after between) =
        (.ok graph, (compile friendTask names).2.after between) := by
  intro names between
  have hRun : (compile friendTask names).1.toOption.map Graph.size = some 32 := by
    decide +kernel
  obtain ⟨graph, hGraph, hSize⟩ := Option.map_eq_some_iff.mp hRun
  rw [Outcome.toOption_eq_some_iff] at hGraph
  exact ⟨graph, hGraph, hSize, recompiling_stable friendTask names between hGraph⟩

end ResponseModels
