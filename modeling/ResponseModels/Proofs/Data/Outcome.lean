import Mathlib.Data.List.Forall2

/-! Outcomes taken apart: a chain of steps that may fail succeeded only if every step of it did,
and failed only if one of them did. -/
namespace ResponseModels.Outcome

variable {ε α β : Type}

theorem bind_eq_ok_iff (outcome : Except ε α) (next : α → Except ε β) (result : β) :
    outcome >>= next = .ok result ↔ ∃ value, outcome = .ok value ∧ next value = .ok result := by
  cases outcome with
  | error cause => simp [bind, Except.bind]
  | ok value => simp [bind, Except.bind]

theorem bind_eq_error_iff (outcome : Except ε α) (next : α → Except ε β) (cause : ε) :
    outcome >>= next = .error cause ↔
      outcome = .error cause ∨ ∃ value, outcome = .ok value ∧ next value = .error cause := by
  cases outcome with
  | error found => simp [bind, Except.bind]
  | ok value => simp [bind, Except.bind]

@[simp] theorem pure_eq_ok_iff (value result : α) :
    (pure value : Except ε α) = .ok result ↔ result = value := by
  constructor
  · intro h
    cases h
    rfl
  · rintro rfl
    rfl

/-- An outcome that a condition decides is still decided by it after a change of its value. -/
theorem map_eq_ok_iff_of {outcome : Except ε α} {P : Prop} {value : α}
    (h : ∀ result, outcome = .ok result ↔ P ∧ result = value) (change : α → β) (result : β) :
    (do return change (← outcome)) = .ok result ↔ P ∧ result = change value := by
  simp only [bind_eq_ok_iff, pure_eq_ok_iff, h]
  constructor
  · rintro ⟨_, ⟨hHolds, rfl⟩, rfl⟩
    exact ⟨hHolds, rfl⟩
  · rintro ⟨hHolds, rfl⟩
    exact ⟨value, ⟨hHolds, rfl⟩, rfl⟩

@[simp] theorem throw_ne_ok (cause : ε) (result : α) :
    ¬ (throw cause : Except ε α) = .ok result := by
  intro h
  cases h

theorem toOption_eq_some_iff (outcome : Except ε α) (value : α) :
    outcome.toOption = some value ↔ outcome = .ok value := by
  cases outcome <;> simp [Except.toOption]

/-- What holds at the start and is kept by every step of a fold that succeeds holds at its end. -/
theorem foldlM_keeps {P : β → Prop} {step : β → α → Except ε β} {items : List α}
    (hStep : ∀ state item next, item ∈ items → P state → step state item = .ok next → P next)
    {start finish : β} (hStart : P start) (h : items.foldlM step start = .ok finish) :
    P finish := by
  induction items generalizing start with
  | nil =>
      cases h
      exact hStart
  | cons item rest ih =>
      rw [List.foldlM_cons, bind_eq_ok_iff] at h
      obtain ⟨middle, hItem, hRest⟩ := h
      refine ih ?_ (hStep start item middle List.mem_cons_self hStart hItem) hRest
      intro state other next hMem
      exact hStep state other next (List.mem_cons_of_mem _ hMem)

theorem forM_eq_ok {check : α → Except ε PUnit} {items : List α} {result : PUnit}
    (h : items.forM check = .ok result) {item : α} (hMem : item ∈ items) :
    check item = .ok () := by
  induction items with
  | nil => cases hMem
  | cons first rest ih =>
      rw [List.forM_eq_forM, List.forM_cons, bind_eq_ok_iff] at h
      obtain ⟨_, hFirst, hRest⟩ := h
      rcases List.mem_cons.mp hMem with rfl | hMem
      · exact hFirst
      · exact ih hRest hMem

theorem forM_eq_ok_iff {check : α → Except ε PUnit} (items : List α) (result : PUnit) :
    items.forM check = .ok result ↔ ∀ item ∈ items, check item = .ok () := by
  refine ⟨fun h _ => forM_eq_ok h, ?_⟩
  intro h
  induction items with
  | nil => rfl
  | cons first rest ih =>
      rw [List.forall_mem_cons] at h
      rw [List.forM_eq_forM, List.forM_cons, h.1]
      exact ih h.2

theorem mapM_eq_ok {f : α → Except ε β} {items : List α} {results : List β}
    (h : items.mapM f = .ok results) :
    List.Forall₂ (fun item result => f item = .ok result) items results := by
  induction items generalizing results with
  | nil =>
      cases h
      exact .nil
  | cons item rest ih =>
      rw [List.mapM_cons, bind_eq_ok_iff] at h
      obtain ⟨first, hFirst, h⟩ := h
      rw [bind_eq_ok_iff] at h
      obtain ⟨others, hOthers, h⟩ := h
      rw [pure_eq_ok_iff] at h
      subst h
      exact .cons hFirst (ih hOthers)

theorem mapM_eq_error {f : α → Except ε β} {items : List α} {cause : ε}
    (h : items.mapM f = .error cause) : ∃ item ∈ items, f item = .error cause := by
  induction items with
  | nil => cases h
  | cons item rest ih =>
      rw [List.mapM_cons, bind_eq_error_iff] at h
      rcases h with hFirst | ⟨first, _, h⟩
      · exact ⟨item, List.mem_cons_self, hFirst⟩
      · rcases (bind_eq_error_iff _ _ _).mp h with hRest | ⟨_, _, hPure⟩
        · obtain ⟨other, hOther, hError⟩ := ih hRest
          exact ⟨other, List.mem_cons_of_mem _ hOther, hError⟩
        · cases hPure

/-- Each item of the first list has its match in the second. -/
theorem exists_right {R : α → β → Prop} {items : List α} {results : List β}
    (h : List.Forall₂ R items results) {item : α} (hItem : item ∈ items) :
    ∃ result ∈ results, R item result := by
  induction h with
  | nil => cases hItem
  | @cons _ found _ _ hFirst _ ih =>
      rcases List.mem_cons.mp hItem with rfl | hItem
      · exact ⟨found, List.mem_cons_self, hFirst⟩
      · obtain ⟨result, hResult, hRest⟩ := ih hItem
        exact ⟨result, List.mem_cons_of_mem _ hResult, hRest⟩

/-- Each item of the second list has its match in the first. -/
theorem exists_left {R : α → β → Prop} {items : List α} {results : List β}
    (h : List.Forall₂ R items results) {result : β} (hResult : result ∈ results) :
    ∃ item ∈ items, R item result :=
  exists_right h.flip hResult

/-- Both fail, or the second yields what the first does after a change. -/
def Alike {α' : Type} (change : α → α') (outcome : Except ε α) (other : Except ε α') : Prop :=
  outcome.toOption.map change = other.toOption

namespace Alike

variable {α' β' : Type} {change : α → α'} {more : β → β'}

theorem ok (value : α) :
    Alike change (.ok value : Except ε α) (.ok (change value)) :=
  rfl

theorem error (cause cause' : ε) : Alike change (.error cause) (.error cause') :=
  rfl

theorem bind {outcome : Except ε α} {other : Except ε α'} {next : α → Except ε β}
    {next' : α' → Except ε β'} (h : Alike change outcome other)
    (hNext : ∀ value, Alike more (next value) (next' (change value))) :
    Alike more (outcome >>= next) (other >>= next') := by
  cases outcome with
  | error cause =>
      cases other with
      | error cause' => rfl
      | ok value' => cases h
  | ok value =>
      cases other with
      | error cause' => cases h
      | ok value' =>
          cases h
          exact hNext value

theorem foldlM {step : β → α → Except ε β} {step' : β' → α' → Except ε β'}
    (hStep : ∀ state item, Alike more (step state item) (step' (more state) (change item)))
    (items : List α) (start : β) :
    Alike more (items.foldlM step start) ((items.map change).foldlM step' (more start)) := by
  induction items generalizing start with
  | nil => rfl
  | cons item rest ih =>
      rw [List.map_cons, List.foldlM_cons, List.foldlM_cons]
      exact (hStep start item).bind fun next => ih next

theorem of_ok_iff {check : Except ε PUnit} {check' : Except ε PUnit}
    (h : check = .ok () ↔ check' = .ok ()) : Alike id check check' := by
  cases check with
  | ok _ =>
      rw [h.mp rfl]
      rfl
  | error cause =>
      cases check' with
      | ok _ => cases h.mpr rfl
      | error cause' => rfl

end Alike

end ResponseModels.Outcome
