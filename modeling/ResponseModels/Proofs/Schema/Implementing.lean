import ResponseModels.Proofs.Schema.Possible
import Mathlib.Data.Set.Finite.List
import Mathlib.Logic.Relation

/-! The search for an interface among those that a type implements, without a bound on how far it
goes. It is given by rules: each referenced interface is compared with the name, and otherwise
looked into. Where no interface leads back to itself the search comes to an end, with the answer of
the bounded one. -/
namespace ResponseModels

namespace Schema

variable {schema : Schema} {name start : String} {refs : List TypeRef} {verdict : Bool}

/-- The second interface lists the first. -/
def Lists (schema : Schema) (next name : String) : Prop :=
  ∃ interface, schema.interface? name = some interface ∧
    ∃ ref ∈ interface.interfaces, ref.name = next

/-- No interface implements itself through others. -/
def Acyclic (schema : Schema) : Prop := ∀ name, ¬ Relation.TransGen schema.Lists name name

/-- Interfaces that can be ranked do not implement themselves. -/
theorem acyclic_of_rank (rank : String → Nat)
    (h : ∀ entry ∈ schema.types.entries, ∀ interface ∈ entry.2.interface?,
      ∀ ref ∈ interface.interfaces, rank ref.name < rank entry.1) : schema.Acyclic := by
  have hFalls : ∀ next name, Relation.TransGen schema.Lists next name → rank next < rank name := by
    intro next name hLists
    have hLess : ∀ next name, schema.Lists next name → rank next < rank name := by
      rintro _ name ⟨interface, hFound, ref, hRef, rfl⟩
      obtain ⟨type, hType, hInterface⟩ := Option.bind_eq_some_iff.mp hFound
      exact h (name, type) (OrderedMap.mem_entries_of_get? hType) interface hInterface ref hRef
    induction hLists with
    | single hStep => exact hLess _ _ hStep
    | tail _ hStep ih => exact Nat.lt_trans ih (hLess _ _ hStep)
  exact fun name hCycle => Nat.lt_irrefl _ (hFalls name name hCycle)

/-- The search for a name through references, one after the other: it ends at the name, and goes
into a defined interface of another name before it goes on. -/
inductive Searches (schema : Schema) (name : String) : List TypeRef → Bool → Prop
  | nowhere : Searches schema name [] false
  | found {ref : TypeRef} {rest : List TypeRef} :
    ref.name = name → Searches schema name (ref :: rest) true
  | undefined {ref : TypeRef} {rest : List TypeRef} {verdict : Bool} :
    ref.name ≠ name → schema.interface? ref.name = none → Searches schema name rest verdict →
    Searches schema name (ref :: rest) verdict
  | inside {ref : TypeRef} {rest : List TypeRef} {interface : FieldedType} :
    ref.name ≠ name → schema.interface? ref.name = some interface →
    Searches schema name interface.interfaces true → Searches schema name (ref :: rest) true
  | onward {ref : TypeRef} {rest : List TypeRef} {interface : FieldedType} {verdict : Bool} :
    ref.name ≠ name → schema.interface? ref.name = some interface →
    Searches schema name interface.interfaces false → Searches schema name rest verdict →
    Searches schema name (ref :: rest) verdict

/-- From an interface of another name one gets to the name through what it lists only. -/
theorem exists_leads_iff {interface : FieldedType} (hOther : start ≠ name)
    (hFound : schema.interface? start = some interface) :
    (∃ steps, schema.Leads steps start name) ↔
      ∃ ref ∈ interface.interfaces, ∃ steps, schema.Leads steps ref.name name := by
  constructor
  · rintro ⟨steps, hLeads⟩
    cases hLeads with
    | here => exact absurd rfl hOther
    | step found listed rest =>
        rw [hFound] at found
        cases found
        exact ⟨_, listed, _, rest⟩
  · rintro ⟨ref, hRef, steps, hLeads⟩
    exact ⟨steps + 1, .step hFound hRef hLeads⟩

theorem not_leads_of_undefined (hOther : start ≠ name) (hNone : schema.interface? start = none) :
    ¬ ∃ steps, schema.Leads steps start name := by
  rintro ⟨steps, hLeads⟩
  cases hLeads with
  | here => exact hOther rfl
  | step found =>
      rw [hNone] at found
      cases found

/-- The search finds what the references lead to. -/
theorem Searches.verdict_iff (h : schema.Searches name refs verdict) :
    verdict = true ↔ ∃ ref ∈ refs, ∃ steps, schema.Leads steps ref.name name := by
  induction h with
  | nowhere => simp
  | found hName => simpa using .inl ⟨0, hName ▸ .here 0 _⟩
  | undefined hOther hNone _ ih =>
      have hNot := not_leads_of_undefined hOther hNone
      simp only [ih, List.mem_cons, exists_eq_or_imp, or_iff_right hNot]
  | inside hOther hFound _ ih =>
      have hLeads := (exists_leads_iff hOther hFound).mpr (ih.mp rfl)
      simp only [List.mem_cons, exists_eq_or_imp]
      exact iff_of_true trivial (.inl hLeads)
  | onward hOther hFound _ _ ihInside ihRest =>
      have hNot : ¬ ∃ steps, schema.Leads steps _ name := fun hLeads =>
        absurd (ihInside.mpr ((exists_leads_iff hOther hFound).mp hLeads)) (by simp)
      simp only [ihRest, List.mem_cons, exists_eq_or_imp, or_iff_right hNot]

/-- References can be searched when all that they refer to can be looked into. -/
theorem exists_searches_of_each
    (hEach : ∀ ref ∈ refs, ∀ interface, schema.interface? ref.name = some interface →
      ∃ verdict, schema.Searches name interface.interfaces verdict) :
    ∃ verdict, schema.Searches name refs verdict := by
  induction refs with
  | nil => exact ⟨false, .nowhere⟩
  | cons ref rest ih =>
      obtain ⟨verdict, hRest⟩ := ih fun other hOther => hEach other (List.mem_cons_of_mem _ hOther)
      by_cases hName : ref.name = name
      · exact ⟨true, .found hName⟩
      · cases hFound : schema.interface? ref.name with
        | none => exact ⟨verdict, .undefined hName hFound hRest⟩
        | some interface =>
            obtain ⟨inside, hInside⟩ := hEach ref List.mem_cons_self interface hFound
            cases inside with
            | true => exact ⟨true, .inside hName hFound hInside⟩
            | false => exact ⟨verdict, .onward hName hFound hInside hRest⟩

theorem exists_searches_of_acc (hAcc : Acc schema.Lists start) {interface : FieldedType}
    (hFound : schema.interface? start = some interface) :
    ∃ verdict, schema.Searches name interface.interfaces verdict := by
  induction hAcc generalizing interface with
  | intro start _ ih =>
      apply exists_searches_of_each
      intro ref hRef next hNext
      exact ih ref.name ⟨interface, hFound, ref, hRef, rfl⟩ hNext

/-- Only defined interfaces list any, and there are finitely many, so going from interface to
interface comes to an end. -/
theorem Acyclic.acc (h : schema.Acyclic) (name : String) : Acc schema.Lists name := by
  have hFinite : Finite { name // name ∈ schema.types.keys } :=
    (List.finite_toSet schema.types.keys).to_subtype
  let below : { name // name ∈ schema.types.keys } → { name // name ∈ schema.types.keys } → Prop :=
    fun next name => Relation.TransGen schema.Lists next.1 name.1
  have : IsTrans _ below := ⟨fun _ _ _ hFirst hSecond => hFirst.trans hSecond⟩
  have : Std.Irrefl below := ⟨fun name => h name.1⟩
  have hWellFounded : WellFounded below := Finite.wellFounded_of_trans_of_irrefl below
  have hNone : ∀ name, name ∉ schema.types.keys → Acc schema.Lists name := by
    refine fun name hName => Acc.intro _ fun next hNext => ?_
    obtain ⟨interface, hFound, _⟩ := hNext
    exact absurd (mem_keys_of_interface? hFound) hName
  have hSome : ∀ name : { name // name ∈ schema.types.keys }, Acc schema.Lists name.1 := by
    intro name
    induction name using hWellFounded.induction with
    | _ name ih =>
        refine Acc.intro _ fun next hNext => ?_
        by_cases hKey : next ∈ schema.types.keys
        · exact ih ⟨next, hKey⟩ (.single hNext)
        · exact hNone next hKey
  by_cases hKey : name ∈ schema.types.keys
  · exact hSome ⟨name, hKey⟩
  · exact hNone name hKey

/-- The search through the interfaces of a type comes to an end, with the answer whether the type
implements the one of the name. -/
theorem Acyclic.searches (h : schema.Acyclic) (type : FieldedType) (name : String) :
    schema.Searches name type.interfaces (schema.implements type name) := by
  obtain ⟨verdict, hSearches⟩ : ∃ verdict, schema.Searches name type.interfaces verdict :=
    exists_searches_of_each fun ref _ _ hFound => exists_searches_of_acc (h.acc ref.name) hFound
  have hSame : schema.implements type name = verdict :=
    Bool.eq_iff_iff.mpr ((implements_iff type name).trans hSearches.verdict_iff.symm)
  rwa [hSame]

end Schema

end ResponseModels
