import ResponseModels.Proofs.Model.Composed
import ResponseModels.Proofs.Run.Progress

/-! The worklist of a run. Requests are taken off the queue one by one, the oldest first, until one
fails or none is left. The rounds of a run come to the same: what waits behind a request has no part
in taking it up, so a round may set the requests apart that wait when it begins. -/
namespace ResponseModels

open GraphQL

/-- The session with requests waiting before all others. -/
def Session.ahead (session : Session) (front : List Request) : Session :=
  { session with pending := front ++ session.pending }

namespace Build

variable {α β : Type} {task : Task}

/-- The requests of the session are taken off the queue and taken up, as many as are counted. In
the end none is left, or the last one has failed. -/
inductive WorksOff (task : Task) : Session → Nat → Except ModelError Unit → Session → Prop
  | empty {session after : Session} :
    nextRequest.Yields session none after → WorksOff task session 0 (.ok ()) after
  | fails {session middle after : Session} {request : Request} {cause : ModelError} :
    nextRequest.Yields session (some request) middle →
    (process task request).run middle = (.error cause, after) →
    WorksOff task session 1 (.error cause) after
  | takes {session middle next after : Session} {request : Request} {steps : Nat}
      {outcome : Except ModelError Unit} :
    nextRequest.Yields session (some request) middle →
    (process task request).Yields middle () next → WorksOff task next steps outcome after →
    WorksOff task session (steps + 1) outcome after

theorem yields_nextRequest_none {session : Session} (h : session.pending = []) :
    nextRequest.Yields session none session := by
  unfold nextRequest
  rw [yields_get_bind, h, yields_pure]
  exact ⟨rfl, rfl⟩

theorem yields_nextRequest_some (session : Session) (request : Request) (rest : List Request) :
    nextRequest.Yields (session.ahead (request :: rest)) (some request) (session.ahead rest) :=
  rfl

theorem pending_of_nextRequest_none {session after : Session}
    (h : nextRequest.Yields session none after) : after.pending = [] := by
  unfold nextRequest at h
  rw [yields_get_bind] at h
  split at h
  · rename_i hNone
    rw [yields_pure] at h
    rwa [h.2]
  · rw [yields_bind] at h
    obtain ⟨_, _, _, hSome⟩ := h
    rw [yields_pure] at hSome
    cases hSome.1

/-- Whoever works off all requests without a failure leaves none. -/
theorem WorksOff.pending_eq_nil {session after : Session} {steps : Nat}
    {outcome : Except ModelError Unit} (h : WorksOff task session steps outcome after)
    (hOutcome : outcome = .ok ()) : after.pending = [] := by
  induction h with
  | empty hNone => exact pending_of_nextRequest_none hNone
  | fails => cases hOutcome
  | takes _ _ _ ih => exact ih hOutcome

/-- Requests that wait before those of the step have no part in it, and stay there. -/
def Detached (step : Build α) : Prop :=
  ∀ (before : Session) (front : List Request),
    step.run (before.ahead front) = ((step.run before).1, (step.run before).2.ahead front)

theorem Detached.bind {step : Build α} {next : α → Build β} (hStep : Detached step)
    (hNext : ∀ value, Detached (next value)) : Detached (step >>= next) := by
  intro before front
  rw [run_bind, run_bind, hStep before front]
  rcases hRun : step.run before with ⟨outcome, middle⟩
  cases outcome with
  | error cause => rfl
  | ok value => exact hNext value middle front

theorem Detached.requestName (key : OriginKey) (proposed : String) :
    Detached (requestName key proposed) := by
  intro before front
  rw [run_requestName, run_requestName]
  rfl

theorem Composed.detached {allowed : Model → Prop} {accepted : Place → Prop} {step : Build α}
    (h : Composed allowed accepted step) : Detached step := by
  induction h with
  | pure value => exact fun _ _ => rfl
  | throw cause => exact fun _ _ => rfl
  | bind _ _ ihStep ihNext => exact .bind ihStep ihNext
  | @look _ next hBlind _ ih =>
      intro before front
      have hLook : ∀ session, (get >>= next).run session = (next session).run session :=
        fun _ => rfl
      have hSame : next (before.ahead front) = next before :=
        hBlind before before.names (front ++ before.pending) before.graph
      rw [hLook, hLook, hSame]
      exact ih before before front
  | requestName key proposed => exact .requestName key proposed
  | register _ => exact fun _ _ => rfl
  | addInterface key model => exact fun _ _ => rfl
  | @enqueue request _ =>
      intro before front
      rw [run_modify, run_modify]
      have hQueue : (before.ahead front).enqueue request =
          (before.enqueue request).ahead front := by
        simp [Session.ahead, Session.enqueue]
      rw [hQueue]

theorem detached_process (request : Request) : Detached (process task request) := by
  have hProcess : Composed (fun _ => True) (fun _ => True) (process task request) :=
    .process (fun _ _ => trivial) fun _ => trivial
  exact hProcess.detached

/-- Requests that are taken up without a failure are so when they wait before those of the session,
and it goes on from where that leads. -/
theorem WorksOff.of_processAll {requests : List Request} {session middle after : Session}
    {steps : Nat} {outcome : Except ModelError Unit}
    (hYields : (processAll task requests).Yields session () middle)
    (h : WorksOff task middle steps outcome after) :
    WorksOff task (session.ahead requests) (steps + requests.length) outcome after := by
  induction requests generalizing session with
  | nil =>
      rw [processAll, yields_pure] at hYields
      obtain ⟨_, rfl⟩ := hYields
      exact h
  | cons request rest ih =>
      rw [processAll, yields_bind] at hYields
      obtain ⟨_, next, hFirst, hRest⟩ := hYields
      have hProcess : (process task request).Yields (session.ahead rest) () (next.ahead rest) := by
        rw [Yields, detached_process, hFirst]
      exact .takes (yields_nextRequest_some session request rest) hProcess (ih hRest)

/-- A request that fails does so when it waits before those of the session. -/
theorem exists_worksOff_of_processAll_error {requests : List Request} {session after : Session}
    {cause : ModelError} (hRun : (processAll task requests).run session = (.error cause, after)) :
    ∃ steps last, WorksOff task (session.ahead requests) steps (.error cause) last ∧
      last.names = after.names := by
  induction requests generalizing session with
  | nil => cases hRun
  | cons request rest ih =>
      rw [processAll, run_bind] at hRun
      rcases hFirst : (process task request).run session with ⟨result, next⟩
      have hProcess : (process task request).run (session.ahead rest) =
          (result, next.ahead rest) := by
        rw [detached_process, hFirst]
      rw [hFirst] at hRun
      have hNext := yields_nextRequest_some session request rest
      cases result with
      | error found =>
          cases hRun
          exact ⟨1, after.ahead rest, .fails hNext hProcess, rfl⟩
      | ok value =>
          obtain ⟨steps, last, hWorksOff, hNames⟩ := ih hRun
          exact ⟨steps + 1, last, .takes hNext hProcess hWorksOff, hNames⟩

/-- What the rounds come to, if they leave nothing, is what taking up one request after the other
comes to. -/
theorem exists_worksOff_of_drain {rounds : Nat} {session after : Session}
    {outcome : Except ModelError Unit} (hRun : (drain task rounds).run session = (outcome, after))
    (hPending : outcome = .ok () → after.pending = []) :
    ∃ steps last, WorksOff task session steps outcome last ∧ last.names = after.names ∧
      (outcome = .ok () → last = after) := by
  induction rounds generalizing session with
  | zero =>
      cases hRun
      exact ⟨0, after, .empty (yields_nextRequest_none (hPending rfl)), rfl, fun _ => rfl⟩
  | succ rounds ih =>
      rw [drain, run_get_bind] at hRun
      split at hRun
      · rename_i hNone
        cases hRun
        exact ⟨0, after, .empty (yields_nextRequest_none hNone), rfl, fun _ => rfl⟩
      · -- The requests of the round are set apart, which is to say that they wait before none.
        have hStart : ({ session with pending := [] } : Session).ahead session.pending =
            session := by
          simp [Session.ahead]
        rw [run_bind, run_modify] at hRun
        simp only [run_bind] at hRun
        rcases hAll : (processAll task session.pending).run { session with pending := [] } with
          ⟨result, middle⟩
        rw [hAll] at hRun
        cases result with
        | error cause =>
            cases hRun
            obtain ⟨steps, last, hWorksOff, hNames⟩ := exists_worksOff_of_processAll_error hAll
            rw [hStart] at hWorksOff
            exact ⟨steps, last, hWorksOff, hNames, fun hOk => by cases hOk⟩
        | ok value =>
            obtain ⟨steps, last, hWorksOff, hNames, hSame⟩ := ih hRun
            have hBefore := hWorksOff.of_processAll hAll
            rw [hStart] at hBefore
            exact ⟨_, last, hBefore, hNames, hSame⟩

end Build

end ResponseModels
