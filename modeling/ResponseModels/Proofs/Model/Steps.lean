import ResponseModels.Model.Compile

/-! Taking build steps apart. A composed step that yields a value went through one session after
the other, and each of its parts yielded a value; one that fails came to a part that fails. What a
step that fails leaves behind plays no part here. -/
namespace ResponseModels

/-- From the session `before` the step yields `value` and leaves the session `after`. -/
def Build.Yields {α : Type} (step : Build α) (before : Session) (value : α) (after : Session) :
    Prop :=
  step.run before = (.ok value, after)

/-- From the session `before` the step fails. -/
def Build.Fails {α : Type} (step : Build α) (before : Session) (cause : ModelError) : Prop :=
  (step.run before).1 = .error cause

namespace Build

variable {α β : Type} {before after : Session} {cause : ModelError}

@[simp] theorem yields_pure (value result : α) :
    (pure value : Build α).Yields before result after ↔ result = value ∧ after = before := by
  constructor
  · intro h
    cases h
    exact ⟨rfl, rfl⟩
  · rintro ⟨rfl, rfl⟩
    rfl

theorem run_bind (step : Build α) (next : α → Build β) :
    (step >>= next).run before =
      match step.run before with
      | (.ok value, middle) => (next value).run middle
      | (.error cause, middle) => (.error cause, middle) := by
  show (ExceptT.bindCont next (step before).1) (step before).2 = _
  rcases hStep : step before with ⟨outcome, middle⟩
  have hRun : step.run before = (outcome, middle) := hStep
  rw [hRun]
  cases outcome <;> rfl

theorem yields_bind (step : Build α) (next : α → Build β) (result : β) :
    (step >>= next).Yields before result after ↔
      ∃ value middle, step.Yields before value middle ∧
        (next value).Yields middle result after := by
  unfold Yields
  rw [run_bind]
  constructor
  · intro h
    rcases hStep : step.run before with ⟨outcome, middle⟩
    rw [hStep] at h
    cases outcome with
    | error cause => cases h
    | ok value => exact ⟨value, middle, rfl, h⟩
  · rintro ⟨value, middle, hStep, hNext⟩
    rw [hStep]
    exact hNext

/-- A composed step fails in its first part, or after that yielded a value. -/
theorem fails_bind {step : Build α} {next : α → Build β}
    (h : (step >>= next).Fails before cause) :
    step.Fails before cause ∨
      ∃ value middle, step.Yields before value middle ∧ (next value).Fails middle cause := by
  unfold Fails Yields at *
  rw [run_bind] at h
  rcases hStep : step.run before with ⟨outcome, middle⟩
  rw [hStep] at h
  cases outcome with
  | error found =>
      cases h
      exact .inl rfl
  | ok value => exact .inr ⟨value, middle, rfl, h⟩

@[simp] theorem yields_map (step : Build α) (f : α → β) (result : β) :
    (f <$> step).Yields before result after ↔
      ∃ value, step.Yields before value after ∧ result = f value := by
  rw [map_eq_pure_bind, yields_bind]
  constructor
  · rintro ⟨value, middle, hStep, hPure⟩
    rw [yields_pure] at hPure
    obtain ⟨rfl, rfl⟩ := hPure
    exact ⟨value, hStep, rfl⟩
  · rintro ⟨value, hStep, rfl⟩
    exact ⟨value, after, hStep, (yields_pure _ _).mpr ⟨rfl, rfl⟩⟩

@[simp] theorem yields_get (result : Session) :
    (get : Build Session).Yields before result after ↔ result = before ∧ after = before := by
  constructor
  · intro h
    cases h
    exact ⟨rfl, rfl⟩
  · rintro ⟨rfl, rfl⟩
    rfl

theorem run_get_bind (next : Session → Build β) :
    (get >>= next).run before = (next before).run before :=
  rfl

/-- A step that starts by looking at the session goes on in that session. -/
theorem yields_get_bind (next : Session → Build β) (result : β) :
    (get >>= next).Yields before result after ↔ (next before).Yields before result after :=
  Iff.rfl

@[simp] theorem yields_modify (change : Session → Session) (result : PUnit) :
    (modify change : Build PUnit).Yields before result after ↔ after = change before := by
  constructor
  · intro h
    cases h
    rfl
  · rintro rfl
    rfl

@[simp] theorem yields_throw (cause : ModelError) (result : α) :
    ¬ (throw cause : Build α).Yields before result after := by
  intro h
  cases h

/-- An outcome that does not depend on the session leaves it alone. -/
@[simp] theorem yields_ofExcept (outcome : Except ModelError α) (result : α) :
    (ofExcept outcome).Yields before result after ↔ outcome = .ok result ∧ after = before := by
  cases outcome with
  | error cause =>
      constructor
      · intro h
        cases h
      · rintro ⟨h, _⟩
        cases h
  | ok value =>
      constructor
      · intro h
        cases h
        exact ⟨rfl, rfl⟩
      · rintro ⟨h, rfl⟩
        cases h
        rfl

theorem run_modify (change : Session → Session) :
    (modify change : Build PUnit).run before = (.ok (), change before) :=
  rfl

theorem run_ofExcept (outcome : Except ModelError α) :
    (ofExcept outcome).run before = (outcome, before) := by
  cases outcome <;> rfl

theorem run_requestName (key : OriginKey) (proposed : String) :
    (requestName key proposed).run before =
      ((before.names.request key proposed).1,
        { before with names := (before.names.request key proposed).2 }) := by
  unfold requestName
  exact run_ofExcept _

theorem yields_requestName (key : OriginKey) (proposed result : String) :
    (requestName key proposed).Yields before result after ↔
      (before.names.request key proposed).1 = .ok result ∧
        after = { before with names := (before.names.request key proposed).2 } := by
  rw [Yields, run_requestName, Prod.mk.injEq]
  exact and_congr_right fun _ => eq_comm

@[simp] theorem yields_register (model : Model) (result : Unit) :
    (register model).Yields before result after ↔ after = before.register model := by
  unfold register
  exact yields_modify _ _

theorem not_fails_pure (value : α) : ¬ (pure value : Build α).Fails before cause := by
  intro h
  cases h

theorem not_fails_get : ¬ (get : Build Session).Fails before cause := by
  intro h
  cases h

theorem not_fails_modify (change : Session → Session) :
    ¬ (modify change : Build PUnit).Fails before cause := by
  intro h
  cases h

theorem fails_throw {found : ModelError} (h : (throw found : Build α).Fails before cause) :
    cause = found := by
  cases h
  rfl

theorem fails_ofExcept {outcome : Except ModelError α}
    (h : (ofExcept outcome).Fails before cause) : outcome = .error cause := by
  cases outcome with
  | error found =>
      cases h
      rfl
  | ok value => cases h

/-- What is made of a value at the end does not fail. -/
theorem fails_bind_pure {step : Build α} {f : α → β}
    (h : (step >>= fun value => pure (f value)).Fails before cause) : step.Fails before cause := by
  rcases fails_bind h with hStep | ⟨value, middle, _, hPure⟩
  · exact hStep
  · exact absurd hPure (not_fails_pure _)

theorem fails_map {step : Build α} {f : α → β} (h : (f <$> step).Fails before cause) :
    step.Fails before cause := by
  rw [map_eq_pure_bind] at h
  exact fails_bind_pure h

/-- A step that starts by looking at the session fails in what follows. -/
theorem fails_get_bind {next : Session → Build β} (h : (get >>= next).Fails before cause) :
    (next before).Fails before cause := by
  rcases fails_bind h with hGet | ⟨session, middle, hGet, hNext⟩
  · exact absurd hGet not_fails_get
  · rw [yields_get] at hGet
    obtain ⟨rfl, rfl⟩ := hGet
    exact hNext

theorem fails_requestName {key : OriginKey} {proposed : String}
    (h : (requestName key proposed).Fails before cause) :
    (before.names.request key proposed).1 = .error cause := by
  unfold requestName at h
  rcases fails_bind (fails_get_bind h) with hModify | ⟨_, _, _, hOutcome⟩
  · exact absurd hModify (not_fails_modify _)
  · exact fails_ofExcept hOutcome

end Build

end ResponseModels
