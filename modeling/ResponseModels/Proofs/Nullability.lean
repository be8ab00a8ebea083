import ResponseModels.Schema.Annotation
import ResponseModels.Proofs.GraphQL.TypeReading
import Mathlib.Algebra.Ring.Parity
import Mathlib.Tactic.Tauto

/-! Which levels of a declared type may be null. Wrappers that stand directly around each other are
taken in pairs, and a pair leaves no trace: what counts is whether their number is odd. Lists and
the name are kept in any case. -/
namespace ResponseModels

open GraphQL

namespace Annotation

/-- Whether each level must not be null, from the outermost list down to the name. -/
def required : Annotation → List Bool
  | list item nullable _ => (!nullable) :: item.required
  | named nullable _ => [!nullable]

/-- How many lists stand around the name. -/
def listDepth : Annotation → Nat
  | list item _ _ => item.listDepth + 1
  | named _ _ => 0

theorem required_ofTypeExpr (location : Location) (type : TypeExpr) :
    (ofTypeExpr location type).required =
      type.marks.map fun count => decide (Odd count) := by
  fun_induction ofTypeExpr location type with
  | case1 name => rfl
  | case2 item ih =>
      rw [required, ih]
      rfl
  | case3 name => rfl
  | case4 item ih =>
      rw [required, ih]
      rfl
  | case5 inner ih =>
      -- The pair counts for two, and the number of the others decides as before.
      rw [ih, TypeExpr.marks, TypeExpr.marks, List.map_cons, List.map_cons]
      congr 1
      simp [TypeExpr.outerMarks, Nat.odd_add_one]

theorem listDepth_ofTypeExpr (location : Location) (type : TypeExpr) :
    (ofTypeExpr location type).listDepth = type.listDepth := by
  fun_induction ofTypeExpr location type with
  | case1 name => rfl
  | case2 item ih => rw [listDepth, ih, TypeExpr.listDepth]
  | case3 name => rfl
  | case4 item ih => rw [listDepth, ih, TypeExpr.listDepth, TypeExpr.listDepth]
  | case5 inner ih => rw [ih, TypeExpr.listDepth, TypeExpr.listDepth]

theorem innermost_ofTypeExpr (location : Location) (type : TypeExpr) :
    (ofTypeExpr location type).innermost = ⟨type.innermost, location⟩ := by
  fun_induction ofTypeExpr location type with
  | case1 name => rfl
  | case2 item ih => exact ih
  | case3 name => rfl
  | case4 item ih => exact ih
  | case5 inner ih => exact ih

/-- Every wrapper is told by its level exactly if none stands among an even number of them. -/
theorem required_eq_marked_iff (location : Location) (type : TypeExpr) :
    (ofTypeExpr location type).required = type.marks.map (fun count => decide (0 < count)) ↔
      ∀ count ∈ type.marks, Even count → count = 0 := by
  rw [required_ofTypeExpr, List.map_inj_left]
  refine forall₂_congr fun count _ => ?_
  rw [decide_eq_decide, ← Nat.not_even_iff_odd, Nat.pos_iff_ne_zero]
  tauto

/-- No wrapper is lost where the type was read from text, as no text has two of them around each
other. -/
theorem required_of_read (location : Location) {type : TypeExpr} {lexemes rest : List Lexeme}
    (h : TypeExpr.rule.run lexemes = some (type, rest)) :
    (ofTypeExpr location type).required = type.marks.map fun count => decide (0 < count) := by
  rw [required_eq_marked_iff]
  intro count hCount hEven
  have hOnce := TypeExpr.markedOnce_of_ruleWithin h count hCount
  obtain ⟨half, rfl⟩ := hEven
  omega

end Annotation

/-- A level of an annotation must not be null exactly if the number of wrappers around it is odd.
So wrappers are lost just where an even number of them stand around each other. -/
theorem required_iff_odd_marks (location : Location) (type : TypeExpr) :
    let built := Annotation.ofTypeExpr location type
    built.required = type.marks.map (fun count => decide (Odd count)) ∧
      built.listDepth = type.listDepth ∧ built.innermost.name = type.innermost ∧
      (built.required = type.marks.map (fun count => decide (0 < count)) ↔
        ∀ count ∈ type.marks, Even count → count = 0) := by
  intro built
  have hRequired := Annotation.required_ofTypeExpr location type
  have hInnermost := Annotation.innermost_ofTypeExpr location type
  refine ⟨hRequired, Annotation.listDepth_ofTypeExpr location type, ?_,
    Annotation.required_eq_marked_iff location type⟩
  rw [hInnermost]

/-- Two wrappers around the items of a list leave them nullable, while the one around the list
counts. -/
theorem pair_of_wrappers_lost :
    let type := TypeExpr.nonNull (.list (.nonNull (.nonNull (.named "Int"))))
    type.marks = [1, 2] ∧ Annotation.required (.ofTypeExpr .builtIn type) = [true, false] := by
  refine ⟨rfl, ?_⟩
  rw [(required_iff_odd_marks .builtIn _).1]
  decide

end ResponseModels
