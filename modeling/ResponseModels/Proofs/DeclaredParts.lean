import ResponseModels.Proofs.Data.Repeats
import ResponseModels.Proofs.Schema.Assembly
import ResponseModels.Proofs.Schema.References

/-! What becomes of the fields and members that the declarations of a type list. An object or
interface type has them all, as a name that is declared twice is refused. A union takes a member
again that an extension lists once more, and an input type takes a field again wherever it is
listed: the later one replaces the earlier one in its place. -/
namespace ResponseModels

open GraphQL

namespace OrderedMap

variable {α : Type}

/-- Where a name is listed more than once, the last entry stands at the place of the first. -/
structure Holds (m : OrderedMap α) (listed : List (String × α)) : Prop where
  keys : m.keys = (listed.map Prod.fst).eraseDups
  values : ∀ key, m.get? key = listed.reverse.lookup key
  /-- Entries are lost exactly if a name repeats. -/
  complete : m.size = listed.length ↔ (listed.map Prod.fst).Nodup
  entries : (listed.map Prod.fst).Nodup → m.entries = listed

theorem ofList_concat (rest : List (String × α)) (entry : String × α) :
    ofList (rest ++ [entry]) = (ofList rest).insert entry.1 entry.2 :=
  ofList_append rest [entry]

theorem keys_ofList (listed : List (String × α)) :
    (ofList listed).keys = (listed.map Prod.fst).eraseDups := by
  induction listed using List.reverseRecOn with
  | nil => rfl
  | append_singleton rest entry ih =>
      rw [ofList_concat, keys_insert, ih, List.map_append, List.map_singleton,
        Repeats.eraseDups_concat]

theorem get?_ofList (listed : List (String × α)) (key : String) :
    (ofList listed).get? key = listed.reverse.lookup key := by
  induction listed using List.reverseRecOn with
  | nil => rfl
  | append_singleton rest entry ih =>
      rw [ofList_concat, get?_insert, ih, List.reverse_append, List.reverse_singleton,
        List.singleton_append, List.lookup_cons]
      by_cases hSame : key = entry.1
      · simp [hSame]
      · rw [if_neg hSame, beq_eq_false_iff_ne.mpr hSame]

theorem holds_ofList (listed : List (String × α)) : (ofList listed).Holds listed where
  keys := keys_ofList listed
  values := get?_ofList listed
  complete := by
    have hSize : (ofList listed).size = (ofList listed).keys.length := by
      rw [size, OrderedMap.keys, List.length_map]
    rw [hSize, keys_ofList, ← Repeats.length_eraseDups_eq_iff, List.length_map]
  entries := fun hKeys => by rw [ofList_eq listed hKeys]

end OrderedMap

/-- With distinct names a definition is the only one of its name. -/
theorem Loads.named_of_mem {decls : List (Loaded TypeDecl)} (h : (decls.map (·.2.name)).Nodup)
    {decl : Loaded TypeDecl} (hDecl : decl ∈ decls) : named decl.2.name decls = [decl] := by
  obtain ⟨front, back, rfl⟩ := List.append_of_mem hDecl
  rw [List.map_append, List.map_cons, List.nodup_middle, List.nodup_cons,
    ← List.map_append] at h
  have hOthers : ∀ others ⊆ front ++ back, named decl.2.name others = [] := by
    intro others hSubset
    rw [named_eq_nil_iff]
    intro other hOther hName
    exact h.1 (List.mem_map.mpr ⟨other, hSubset hOther, hName⟩)
  have hFront := hOthers front (List.subset_append_left _ _)
  have hBack := hOthers back (List.subset_append_right _ _)
  rw [named] at hFront hBack ⊢
  rw [List.filter_append, hFront, List.filter_cons, hBack]
  simp

/-- What a type of a built schema has of the parts that declare it. Fields of objects and
interfaces are all there, each as it was written, and a name that is declared twice is refused;
so is a member that the definition of a union lists twice. Of a member that an extension lists
again, and of an input field that is listed again anywhere, only the last stays. -/
theorem declared_parts_of_built {items : List (Loaded SchemaItem)} {schema : Schema}
    (h : Schema.ofItems items = .ok schema) {name : String} {type : SchemaType}
    (hType : schema.type? name = some type) :
    let definitions := Loads.named name (Loads.definitions items)
    let parts := definitions ++ Loads.named name (Loads.extensions items)
    (∀ fielded ∈ type.fielded?, fielded.fields.entries =
        ("__typename", .typename name fielded.location) ::
          parts.flatMap (Draft.listedFields name) ∧
      (parts.flatMap fun part => part.2.body.fields.map FieldDecl.name).Nodup) ∧
    (∀ union ∈ type.union?, union.members.Holds (parts.flatMap Draft.listedMembers) ∧
      (definitions.flatMap (·.2.body.members)).Nodup) ∧
    ∀ input, type = .input input → input.fields.Holds (parts.flatMap Draft.listedInputs) := by
  obtain ⟨hAcceptable, roots, _, hFinish⟩ := (Schema.ofItems_eq_ok_iff items schema).mp h
  obtain ⟨_, _, _, _, hTypes⟩ := (Draft.finish_eq_ok_iff _ _ _).mp hFinish
  rw [Schema.type?, hTypes] at hType
  rcases (Draft.mem_settledTypes_iff _ _ _).mp (OrderedMap.mem_entries_of_get? hType) with
    hBuiltIn | ⟨definition, hDefinition, hEntry⟩
  · simp only [Draft.initial, List.mem_cons, Prod.mk.injEq, List.not_mem_nil,
      or_false] at hBuiltIn
    rcases hBuiltIn with ⟨_, rfl⟩ | ⟨_, rfl⟩ | ⟨_, rfl⟩ | ⟨_, rfl⟩ | ⟨_, rfl⟩ <;>
      refine ⟨?_, ?_, ?_⟩ <;> intro _ hPart <;> cases hPart
  · obtain ⟨rfl, rfl⟩ := Prod.mk.inj hEntry
    have hAssembles := hAcceptable.assembles definition hDefinition
    intro definitions parts
    have hOnly : definitions = [definition] :=
      Loads.named_of_mem hAcceptable.names.distinct hDefinition
    have hParts : parts = definition ::
        Loads.named definition.2.name (Loads.extensions items) :=
      congrArg (· ++ _) hOnly
    refine ⟨?_, ?_, ?_⟩
    · intro fielded hFielded
      rw [Draft.eq_of_mem_fielded?_assembled hFielded, hParts]
      exact ⟨rfl, hAssembles.fields.distinct⟩
    · intro union hUnion
      rw [hParts, hOnly, List.flatMap_singleton]
      refine ⟨?_, hAssembles.members⟩
      unfold Draft.assembled at hUnion
      split at hUnion <;> cases hUnion
      exact OrderedMap.holds_ofList _
    · intro input hInput
      rw [hParts]
      unfold Draft.assembled at hInput
      split at hInput <;> cases hInput
      exact OrderedMap.holds_ofList _

/-- An extension lists a member of the union again, and another one a field of the input type. -/
def repeatingItems : List (Loaded SchemaItem) :=
  [(none, .define ⟨⟨1, 1⟩, none, "Query", .object [] [⟨⟨1, 14⟩, none, "a", .named "A"⟩]⟩),
    (none, .define ⟨⟨1, 22⟩, none, "A", .object [] [⟨⟨1, 31⟩, none, "x", .named "Int"⟩]⟩),
    (none, .define ⟨⟨1, 40⟩, none, "B", .object [] [⟨⟨1, 49⟩, none, "x", .named "Int"⟩]⟩),
    (none, .define ⟨⟨1, 58⟩, none, "U", .union ["A", "B"]⟩),
    (none, .extend ⟨⟨1, 81⟩, none, "U", .union ["A"]⟩),
    (none, .define ⟨⟨2, 1⟩, none, "Filter", .input [⟨⟨2, 16⟩, "x", .named "Int"⟩]⟩),
    (none, .extend ⟨⟨3, 8⟩, none, "Filter", .input [⟨⟨3, 23⟩, "x", .named "String"⟩]⟩)]

/-- The schema is built all the same, with two of three members and one of two fields. -/
theorem repeated_parts_lost :
    ∃ schema union input, Schema.ofItems repeatingItems = .ok schema ∧
      schema.type? "U" = some (.union union) ∧ schema.type? "Filter" = some (.input input) ∧
      union.members.Holds [("A", ⟨"A", .schema⟩), ("B", ⟨"B", .schema⟩),
        ("A", ⟨"A", .schema⟩)] ∧ union.members.size = 2 ∧
      input.fields.Holds [("x", .named true ⟨"Int", .schema⟩),
        ("x", .named true ⟨"String", .schema⟩)] ∧ input.fields.size = 1 := by
  have hBuilt : (Schema.ofItems repeatingItems).toOption.map (fun schema =>
      (schema.type? "U", schema.type? "Filter")) = some
        (some (.union ⟨.schema, none, "U",
          ⟨[("A", ⟨"A", .schema⟩), ("B", ⟨"B", .schema⟩)]⟩⟩),
        some (.input ⟨.schema, none, ⟨[("x", .named true ⟨"String", .schema⟩)]⟩,
          "Filter"⟩)) := by
    decide +kernel
  obtain ⟨schema, hSchema, hTypes⟩ := Option.map_eq_some_iff.mp hBuilt
  obtain ⟨hUnion, hInput⟩ := Prod.mk.inj hTypes
  rw [Outcome.toOption_eq_some_iff] at hSchema
  obtain ⟨_, hMembers, _⟩ := declared_parts_of_built hSchema hUnion
  obtain ⟨_, _, hFields⟩ := declared_parts_of_built hSchema hInput
  exact ⟨schema, _, _, hSchema, hUnion, hInput, (hMembers _ rfl).1, rfl, hFields _ rfl, rfl⟩

end ResponseModels
