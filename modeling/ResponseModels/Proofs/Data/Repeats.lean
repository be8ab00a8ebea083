import Mathlib.Data.List.Induction

/-! Lists without their repeats. Two lists are alike when dropping every item that occurred before
leaves the same list; being alike is kept by whatever is done to lists item by item. -/
namespace ResponseModels.Repeats

variable {α β : Type} [BEq α]

/-- The lists are the same once repeats are dropped. -/
def Alike (items others : List α) : Prop := items.eraseDups = others.eraseDups

theorem Alike.refl (items : List α) : Alike items items := rfl

theorem Alike.symm {items others : List α} (h : Alike items others) : Alike others items :=
  Eq.symm h

theorem Alike.trans {items others more : List α} (h : Alike items others)
    (h' : Alike others more) : Alike items more :=
  Eq.trans h h'

variable [LawfulBEq α]

theorem nodup_eraseDups (items : List α) : items.eraseDups.Nodup := by
  cases items with
  | nil => exact List.nodup_nil
  | cons first rest =>
      rw [List.eraseDups_cons, List.nodup_cons]
      refine ⟨?_, nodup_eraseDups (rest.filter (!· == first))⟩
      rw [List.mem_eraseDups]
      simp
termination_by items.length
decreasing_by
  have hLe := List.length_filter_le (!· == first) rest
  simp only [List.length_cons]
  omega

theorem eraseDups_of_nodup {items : List α} (h : items.Nodup) : items.eraseDups = items := by
  induction items with
  | nil => rfl
  | cons first rest ih =>
      rw [List.nodup_cons] at h
      have hKeep : rest.filter (!· == first) = rest := by
        rw [List.filter_eq_self]
        intro item hItem
        simp only [Bool.not_eq_true', beq_eq_false_iff_ne]
        rintro rfl
        exact h.1 hItem
      rw [List.eraseDups_cons, hKeep, ih h.2]

theorem alike_eraseDups (items : List α) : Alike items.eraseDups items :=
  eraseDups_of_nodup (nodup_eraseDups items)

/-- One more item stays exactly if it did not occur before. -/
theorem eraseDups_concat (items : List α) (item : α) [Decidable (item ∈ items.eraseDups)] :
    (items ++ [item]).eraseDups =
      if item ∈ items.eraseDups then items.eraseDups else items.eraseDups ++ [item] := by
  rw [List.eraseDups_append]
  by_cases hItem : item ∈ items
  · simp [List.removeAll, hItem]
  · simp [List.removeAll, hItem, List.eraseDups_cons]

theorem eraseDups_sublist [DecidableEq α] (items : List α) : items.eraseDups.Sublist items := by
  induction items using List.reverseRecOn with
  | nil => exact List.Sublist.refl _
  | append_singleton rest item ih =>
      rw [eraseDups_concat]
      split
      · exact ih.trans (List.sublist_append_left _ _)
      · exact ih.append (List.Sublist.refl _)

/-- Nothing is dropped exactly if nothing repeats. -/
theorem length_eraseDups_eq_iff [DecidableEq α] (items : List α) :
    items.eraseDups.length = items.length ↔ items.Nodup := by
  constructor
  · intro h
    have hSame := (eraseDups_sublist items).eq_of_length h
    rw [← hSame]
    exact nodup_eraseDups items
  · intro h
    rw [eraseDups_of_nodup h]

/-- Dropping repeats comes to the same before and after items are picked out. -/
theorem eraseDups_filter (p : α → Bool) (items : List α) :
    (items.filter p).eraseDups = items.eraseDups.filter p := by
  cases items with
  | nil => simp
  | cons first rest =>
      have hRest := eraseDups_filter p (rest.filter (!· == first))
      rw [List.eraseDups_cons]
      by_cases hFirst : p first = true
      · rw [List.filter_cons_of_pos hFirst, List.filter_cons_of_pos hFirst, List.eraseDups_cons,
          ← hRest, List.filter_filter, List.filter_filter]
        simp only [Bool.and_comm]
      · have hSame : rest.filter p = (rest.filter (!· == first)).filter p := by
          rw [List.filter_filter]
          apply List.filter_congr
          intro item _
          by_cases hItem : item = first <;> simp_all
        rw [List.filter_cons_of_neg hFirst, List.filter_cons_of_neg hFirst, ← hRest, hSame]
termination_by items.length
decreasing_by
  have hLe := List.length_filter_le (!· == first) rest
  simp only [List.length_cons]
  omega

/-- The images of items drop their repeats after the items did. -/
theorem eraseDups_map [BEq β] [LawfulBEq β] (f : α → β) (items : List α) :
    (items.eraseDups.map f).eraseDups = (items.map f).eraseDups := by
  cases items with
  | nil => simp
  | cons first rest =>
      have hRest := eraseDups_map f (rest.filter fun item => !f item == f first)
      have hSame : (rest.filter (!· == first)).filter (fun item => !f item == f first) =
          rest.filter fun item => !f item == f first := by
        rw [List.filter_filter]
        apply List.filter_congr
        intro item _
        by_cases hItem : item = first <;> simp_all
      rw [List.eraseDups_cons, List.map_cons, List.eraseDups_cons, List.map_cons,
        List.eraseDups_cons, List.filter_map, List.filter_map]
      congr 1
      change (((rest.filter (!· == first)).eraseDups.filter
        fun item => !f item == f first).map f).eraseDups = _
      rw [← eraseDups_filter, hSame, hRest]
      rfl
termination_by items.length
decreasing_by
  have hLe := List.length_filter_le (fun item => !f item == f first) rest
  simp only [List.length_cons]
  omega

namespace Alike

variable {items others more extra : List α}

theorem mem_iff (h : Alike items others) (item : α) : item ∈ items ↔ item ∈ others := by
  rw [← List.mem_eraseDups, h, List.mem_eraseDups]

theorem filter (h : Alike items others) (p : α → Bool) :
    Alike (items.filter p) (others.filter p) := by
  unfold Alike
  rw [eraseDups_filter, eraseDups_filter, h]

theorem map [BEq β] [LawfulBEq β] (h : Alike items others) (f : α → β) :
    Alike (items.map f) (others.map f) := by
  unfold Alike
  rw [← eraseDups_map, h, eraseDups_map]

theorem append (h : Alike items others) (h' : Alike more extra) :
    Alike (items ++ more) (others ++ extra) := by
  have hLeft : more.removeAll items = more.removeAll others := by
    apply List.filter_congr
    intro item _
    rw [Bool.eq_iff_iff]
    simp [h.mem_iff]
  unfold Alike
  rw [List.eraseDups_append, List.eraseDups_append, h, hLeft]
  exact congrArg _ (h'.filter _)

/-- What occurred before adds nothing. -/
theorem append_of_subset (h : more ⊆ items) : Alike (items ++ more) items := by
  have hNothing : more.removeAll items = [] := by
    rw [List.removeAll, List.filter_eq_nil_iff]
    intro item hItem
    simpa using h hItem
  unfold Alike
  rw [List.eraseDups_append, hNothing, List.eraseDups_nil, List.append_nil]

end Alike

end ResponseModels.Repeats
