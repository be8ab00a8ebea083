import ResponseModels.Proofs.Schema.Unplaced

/-! Extensions are a way of writing. A definition that lists the items of its extensions behind its
own says the same as the definition and the extensions together, and an extension says the same
wherever it is loaded. -/
namespace ResponseModels

open GraphQL

/-- The definition with the items of extensions behind its own, in their order. -/
def GraphQL.TypeDecl.absorbing (decl : TypeDecl) (extensions : List (Loaded TypeDecl)) :
    TypeDecl :=
  { decl with
    body := match decl.body with
      | .scalar => .scalar
      | .object interfaces fields =>
        .object (interfaces ++ extensions.flatMap (·.2.body.interfaces))
          (fields ++ extensions.flatMap (·.2.body.fields))
      | .interface interfaces fields =>
        .interface (interfaces ++ extensions.flatMap (·.2.body.interfaces))
          (fields ++ extensions.flatMap (·.2.body.fields))
      | .union members => .union (members ++ extensions.flatMap (·.2.body.members))
      | .enum values => .enum (values ++ extensions.flatMap (·.2.body.values))
      | .input fields => .input (fields ++ extensions.flatMap (·.2.body.inputs)) }

theorem GraphQL.TypeDecl.kind_absorbing (decl : TypeDecl) (extensions : List (Loaded TypeDecl)) :
    (decl.absorbing extensions).body.kind = decl.body.kind := by
  unfold absorbing
  cases decl.body <;> rfl

namespace Loads

/-- The items without the extensions of one type. -/
def withoutExtensionsOf (name : String) (items : List (Loaded SchemaItem)) :
    List (Loaded SchemaItem) :=
  items.filter fun item =>
    match item.2 with
    | .extend decl => decl.name != name
    | _ => true

theorem definitions_withoutExtensionsOf (name : String) (items : List (Loaded SchemaItem)) :
    definitions (withoutExtensionsOf name items) = definitions items := by
  rw [definitions, withoutExtensionsOf, List.filterMap_filter]
  apply List.filterMap_congr
  rintro ⟨file, item⟩ _
  cases item with
  | extend decl => simp
  | _ => simp

theorem schemaBlocks_withoutExtensionsOf (name : String) (items : List (Loaded SchemaItem)) :
    schemaBlocks (withoutExtensionsOf name items) = schemaBlocks items := by
  rw [schemaBlocks, withoutExtensionsOf, List.filterMap_filter]
  apply List.filterMap_congr
  rintro ⟨file, item⟩ _
  cases item with
  | extend decl => simp
  | _ => simp

theorem extensions_withoutExtensionsOf (name : String) (items : List (Loaded SchemaItem)) :
    extensions (withoutExtensionsOf name items) =
      (extensions items).filter (·.2.name != name) := by
  rw [extensions, extensions, withoutExtensionsOf, List.filterMap_filter, List.filter_filterMap]
  apply List.filterMap_congr
  rintro ⟨file, item⟩ _
  cases item with
  | extend decl => by_cases hName : decl.name = name <;> simp [hName, Option.filter_some]
  | _ => simp

section Around

variable (front back : List (Loaded SchemaItem)) (file : Option SourcePath) (decl : TypeDecl)

theorem definitions_around : definitions (front ++ (file, .define decl) :: back) =
    definitions front ++ (file, decl) :: definitions back := by
  simp [definitions]

theorem extensions_around : extensions (front ++ (file, .define decl) :: back) =
    extensions front ++ extensions back := by
  simp [extensions]

theorem schemaBlocks_around : schemaBlocks (front ++ (file, .define decl) :: back) =
    schemaBlocks front ++ schemaBlocks back := by
  simp [schemaBlocks]

end Around

theorem named_filter_self (name : String) (extensions : List (Loaded TypeDecl)) :
    named name (extensions.filter (·.2.name != name)) = [] := by
  rw [named_eq_nil_iff]
  intro extension hExtension
  simpa using (List.mem_filter.mp hExtension).2

theorem named_filter_of_ne {name other : String} (h : other ≠ name)
    (extensions : List (Loaded TypeDecl)) :
    named other (extensions.filter (·.2.name != name)) = named other extensions := by
  rw [named, List.filter_filter, named]
  apply List.filter_congr
  intro extension _
  by_cases hOther : extension.2.name = other
  · simp [hOther, h]
  · simp [hOther]

end Loads

namespace Draft

open Loads

section Absorbing

variable (file : Option SourcePath) (decl : TypeDecl) (extensions : List (Loaded TypeDecl))

/-- Apart from places, a type does not show which of its parts listed what. -/
theorem assembled_absorbing :
    (assembled (file, decl.absorbing extensions) []).unplaced =
      (assembled (file, decl) extensions).unplaced := by
  rw [assembled_unplaced, assembled_unplaced]
  unfold assembled assembledFielded
  cases hBody : decl.body <;>
    simp [hBody, TypeDecl.absorbing, unplacedDecl, TypeDecl.unplaced, listedFields,
      listedInterfaces, listedMembers, listedInputs, Location.ofSchema_none, List.flatMap_map,
      List.map_flatMap]

theorem assembles_absorbing_iff
    (hKinds : ∀ extension ∈ extensions, extension.2.body.kind = decl.body.kind)
    (hMembers : (decl.body.members ++ extensions.flatMap (·.2.body.members)).Nodup) :
    Assembles (file, decl.absorbing extensions) [] ↔ Assembles (file, decl) extensions := by
  have hFields : declaredNames [(file, decl.absorbing extensions)] =
      declaredNames ((file, decl) :: extensions) := by
    cases hBody : decl.body with
    | object interfaces fields =>
        simp [declaredNames, TypeDecl.absorbing, hBody, List.map_flatMap]
    | interface interfaces fields =>
        simp [declaredNames, TypeDecl.absorbing, hBody, List.map_flatMap]
    | _ =>
        -- Definitions and extensions of the other kinds have no fields.
        have hNone : ∀ parts : List (Loaded TypeDecl),
            (∀ part ∈ parts, part.2.body.kind = decl.body.kind) → declaredNames parts = [] := by
          intro parts hParts
          rw [declaredNames, List.flatMap_eq_nil_iff]
          intro part hPart
          have hKind := hParts part hPart
          rw [hBody] at hKind
          have hObject : part.2.body.kind ≠ .object := by
            rw [hKind]
            simp [TypeBody.kind]
          have hInterface : part.2.body.kind ≠ .interface := by
            rw [hKind]
            simp [TypeBody.kind]
          rw [TypeBody.fields_eq_nil_of_kind hObject hInterface]
          rfl
        rw [hNone _ (List.forall_mem_cons.mpr ⟨rfl, hKinds⟩),
          hNone _ (List.forall_mem_singleton.mpr (decl.kind_absorbing extensions))]
  have hDistinct : (decl.absorbing extensions).body.members.Nodup := by
    cases hBody : decl.body with
    | union members => simpa [TypeDecl.absorbing, hBody] using hMembers
    | _ => simp [TypeDecl.absorbing, hBody, TypeBody.members]
  constructor
  · rintro ⟨_, hAdmits, _⟩
    exact ⟨hKinds, hFields ▸ hAdmits, (List.nodup_append'.mp hMembers).1⟩
  · rintro ⟨_, hAdmits, _⟩
    exact ⟨by simp, hFields ▸ hAdmits, hDistinct⟩

end Absorbing

section Among

variable (front back : List (Loaded TypeDecl)) (file : Option SourcePath) (decl : TypeDecl)
  (extensions : List (Loaded TypeDecl))

/-- The other definitions keep their extensions. -/
theorem named_of_others
    (hDistinct : ((front ++ (file, decl) :: back).map (·.2.name)).Nodup)
    {definition : Loaded TypeDecl} (hDefinition : definition ∈ front ++ back) :
    named definition.2.name (extensions.filter (·.2.name != decl.name)) =
      named definition.2.name extensions := by
  rw [List.map_append, List.map_cons, List.nodup_middle, List.nodup_cons,
    ← List.map_append] at hDistinct
  refine named_filter_of_ne ?_ extensions
  intro hName
  exact hDistinct.1 (List.mem_map.mpr ⟨definition, hDefinition, hName⟩)

theorem settledTypes_absorbing
    (hDistinct : ((front ++ (file, decl) :: back).map (·.2.name)).Nodup) :
    (settledTypes (front ++ (file, decl.absorbing (named decl.name extensions)) :: back)
        (extensions.filter (·.2.name != decl.name))).mapValues SchemaType.unplaced =
      (settledTypes (front ++ (file, decl) :: back) extensions).mapValues
        SchemaType.unplaced := by
  have hNamed := @named_of_others front back file decl extensions hDistinct
  have hOthers : ∀ definitions ⊆ front ++ back, definitions.map (fun definition =>
      (definition.2.name, assembled definition
        (named definition.2.name (extensions.filter (·.2.name != decl.name))))) =
      definitions.map fun definition =>
        (definition.2.name, assembled definition (named definition.2.name extensions)) := by
    intro definitions hSubset
    apply List.map_congr_left
    intro definition hDefinition
    rw [hNamed (hSubset hDefinition)]
  simp only [settledTypes, List.map_append, List.map_cons,
    hOthers front (List.subset_append_left _ _), hOthers back (List.subset_append_right _ _)]
  simp only [OrderedMap.mapValues, OrderedMap.mapEntries, List.map_append, List.map_cons,
    Prod.map_apply]
  have hOwn : (assembled (file, decl.absorbing (named decl.name extensions))
      (named (decl.absorbing (named decl.name extensions)).name
        (extensions.filter (·.2.name != decl.name)))).unplaced =
      (assembled (file, decl) (named decl.name extensions)).unplaced := by
    refine Eq.trans ?_ (assembled_absorbing file decl _)
    exact congrArg (fun none => (assembled _ none).unplaced) (named_filter_self _ _)
  rw [hOwn]
  rfl

theorem acceptable_absorbing_iff
    (hKinds : ∀ extension ∈ named decl.name extensions,
      extension.2.body.kind = decl.body.kind)
    (hMembers : (decl.body.members ++
      (named decl.name extensions).flatMap (·.2.body.members)).Nodup) :
    Acceptable (front ++ (file, decl.absorbing (named decl.name extensions)) :: back)
        (extensions.filter (·.2.name != decl.name)) ↔
      Acceptable (front ++ (file, decl) :: back) extensions := by
  have hNames : (front ++ (file, decl.absorbing (named decl.name extensions)) :: back).map
      (·.2.name) = (front ++ (file, decl) :: back).map (·.2.name) := by
    simp [TypeDecl.absorbing]
  have hTargets : (∀ extension ∈ extensions.filter (·.2.name != decl.name),
      extension.2.name ∈ (front ++ (file, decl) :: back).map (·.2.name)) ↔
      ∀ extension ∈ extensions,
        extension.2.name ∈ (front ++ (file, decl) :: back).map (·.2.name) := by
    constructor
    · intro h extension hExtension
      by_cases hName : extension.2.name = decl.name
      · simp [hName]
      · exact h extension (List.mem_filter.mpr ⟨hExtension, by simpa using hName⟩)
    · exact fun h extension hExtension => h extension (List.mem_filter.mp hExtension).1
  have hOwn : Assembles (file, decl.absorbing (named decl.name extensions))
      (named (decl.absorbing (named decl.name extensions)).name
        (extensions.filter (·.2.name != decl.name))) ↔
      Assembles (file, decl) (named decl.name extensions) := by
    refine Iff.trans ?_ (assembles_absorbing_iff file decl _ hKinds hMembers)
    exact iff_of_eq (congrArg (Assembles _) (named_filter_self _ _))
  have hAssembles : ((front ++ (file, decl) :: back).map (·.2.name)).Nodup →
      ((∀ definition ∈ front ++ (file, decl.absorbing (named decl.name extensions)) :: back,
        Assembles definition
          (named definition.2.name (extensions.filter (·.2.name != decl.name)))) ↔
      ∀ definition ∈ front ++ (file, decl) :: back,
        Assembles definition (named definition.2.name extensions)) := by
    intro hDistinct
    have hOthers : ∀ definitions ⊆ front ++ back, ((∀ definition ∈ definitions, Assembles definition
          (named definition.2.name (extensions.filter (·.2.name != decl.name)))) ↔
        ∀ definition ∈ definitions, Assembles definition (named definition.2.name extensions)) := by
      intro definitions hSubset
      refine forall₂_congr fun definition hDefinition => ?_
      rw [named_of_others front back file decl extensions hDistinct (hSubset hDefinition)]
    rw [List.forall_mem_append, List.forall_mem_append, List.forall_mem_cons,
      List.forall_mem_cons, hOwn, hOthers front (List.subset_append_left _ _),
      hOthers back (List.subset_append_right _ _)]
  constructor
  · rintro ⟨hAdmits, hNamed, hAll⟩
    rw [hNames] at hAdmits hNamed
    exact ⟨hAdmits, hTargets.mp hNamed, (hAssembles hAdmits.distinct).mp hAll⟩
  · rintro ⟨hAdmits, hNamed, hAll⟩
    refine ⟨?_, ?_, (hAssembles hAdmits.distinct).mpr hAll⟩
    · rwa [hNames]
    · rw [hNames]
      exact hTargets.mpr hNamed

end Among

end Draft

namespace Schema

open Loads

theorem settle_alike {items others : List (Loaded SchemaItem)}
    (hBlocks : schemaBlocks items = schemaBlocks others)
    (hTypes : (Draft.settledTypes (definitions items) (extensions items)).mapValues
        SchemaType.unplaced =
      (Draft.settledTypes (definitions others) (extensions others)).mapValues
        SchemaType.unplaced) :
    (settle items).toOption.map unplaced = (settle others).toOption.map unplaced := by
  refine (settle_unplaced items).trans ?_
  rw [hBlocks, hTypes]
  exact (settle_unplaced others).symm

/-- Items of extensions may stand in the definition instead. -/
theorem ofItems_absorbing {front back : List (Loaded SchemaItem)} {file : Option SourcePath}
    {decl : TypeDecl} {own : List (Loaded TypeDecl)}
    (hOwn : own = named decl.name (extensions (front ++ (file, .define decl) :: back)))
    (hKinds : ∀ extension ∈ own, extension.2.body.kind = decl.body.kind)
    (hMembers : (decl.body.members ++ own.flatMap (·.2.body.members)).Nodup) :
    (ofItems (withoutExtensionsOf decl.name front ++ (file, .define (decl.absorbing own)) ::
        withoutExtensionsOf decl.name back)).toOption.map unplaced =
      (ofItems (front ++ (file, .define decl) :: back)).toOption.map unplaced := by
  subst hOwn
  have hExtensions : extensions (withoutExtensionsOf decl.name front ++
      (file, .define (decl.absorbing (named decl.name
        (extensions (front ++ (file, .define decl) :: back))))) ::
      withoutExtensionsOf decl.name back) =
      (extensions (front ++ (file, .define decl) :: back)).filter (·.2.name != decl.name) := by
    rw [extensions_around, extensions_around, extensions_withoutExtensionsOf,
      extensions_withoutExtensionsOf, List.filter_append]
  have hAcceptable := Draft.acceptable_absorbing_iff (definitions front) (definitions back) file
    decl (extensions (front ++ (file, .define decl) :: back)) hKinds hMembers
  rw [ofItems_toOption, ofItems_toOption, hExtensions, definitions_around, definitions_around,
    definitions_withoutExtensionsOf, definitions_withoutExtensionsOf]
  by_cases h : Draft.Acceptable (definitions front ++ (file, decl) :: definitions back)
      (extensions (front ++ (file, .define decl) :: back))
  · rw [if_pos h, if_pos (hAcceptable.mpr h)]
    refine settle_alike ?_ ?_
    · rw [schemaBlocks_around, schemaBlocks_around, schemaBlocks_withoutExtensionsOf,
        schemaBlocks_withoutExtensionsOf]
    · rw [hExtensions, definitions_around, definitions_around, definitions_withoutExtensionsOf,
        definitions_withoutExtensionsOf]
      exact Draft.settledTypes_absorbing _ _ _ _ _ h.names.distinct
  · rw [if_neg h, if_neg (mt hAcceptable.mp h)]

theorem ofItems_rearranged {items others : List (Loaded SchemaItem)}
    (hExtensions : others.filter (·.2.isExtension) = items.filter (·.2.isExtension))
    (hRest : others.filter (!·.2.isExtension) = items.filter (!·.2.isExtension)) :
    ofItems others = ofItems items := by
  have hFilter : ∀ items, extensions items = extensions (items.filter (·.2.isExtension)) := by
    intro items
    rw [extensions, extensions, List.filterMap_filter]
    apply List.filterMap_congr
    rintro ⟨file, item⟩ _
    cases item <;> rfl
  exact ofItems_eq_of_alike (by rw [hFilter others, hFilter items, hExtensions]) hRest

/-- Moving extensions may change the places of all items. -/
theorem ofItems_moved {items others : List (Loaded SchemaItem)}
    (hExtensions : (others.filter (·.2.isExtension)).map (·.2.unplaced) =
      (items.filter (·.2.isExtension)).map (·.2.unplaced))
    (hRest : (others.filter (!·.2.isExtension)).map (·.2.unplaced) =
      (items.filter (!·.2.isExtension)).map (·.2.unplaced)) :
    (ofItems others).toOption.map unplaced = (ofItems items).toOption.map unplaced := by
  have hUnplaced : ∀ (p : Bool → Bool) (items : List (Loaded SchemaItem)),
      (items.map unplacedItem).filter (fun item => p item.2.isExtension) =
        ((items.filter fun item => p item.2.isExtension).map (·.2.unplaced)).map (none, ·) := by
    intro p items
    rw [List.filter_map, List.map_map]
    congr 1
    apply List.filter_congr
    rintro ⟨file, item⟩ _
    cases item <;> rfl
  refine (ofItems_unplaced others).trans (Eq.trans ?_ (ofItems_unplaced items).symm)
  congr 1
  refine ofItems_rearranged ?_ ?_
  · exact (hUnplaced id others).trans ((congrArg _ hExtensions).trans (hUnplaced id items).symm)
  · exact (hUnplaced not others).trans ((congrArg _ hRest).trans (hUnplaced not items).symm)

end Schema

/-- Extensions are equivalent to writing their items in the definition, wherever they are
loaded. Those that keep their places when they are moved even lead to the same messages. -/
theorem extensions_equivalent_to_items (front back : List (Loaded SchemaItem))
    (file : Option SourcePath) (decl : TypeDecl) :
    let items := front ++ (file, .define decl) :: back
    let own := Loads.named decl.name (Loads.extensions items)
    ((∀ extension ∈ own, extension.2.body.kind = decl.body.kind) →
      (decl.body.members ++ own.flatMap (·.2.body.members)).Nodup →
      (Schema.ofItems (Loads.withoutExtensionsOf decl.name front ++
          (file, .define (decl.absorbing own)) ::
            Loads.withoutExtensionsOf decl.name back)).toOption.map Schema.unplaced =
        (Schema.ofItems items).toOption.map Schema.unplaced) ∧
    ∀ others : List (Loaded SchemaItem),
      (others.filter (·.2.isExtension) = items.filter (·.2.isExtension) →
        others.filter (!·.2.isExtension) = items.filter (!·.2.isExtension) →
        Schema.ofItems others = Schema.ofItems items) ∧
      ((others.filter (·.2.isExtension)).map (·.2.unplaced) =
          (items.filter (·.2.isExtension)).map (·.2.unplaced) →
        (others.filter (!·.2.isExtension)).map (·.2.unplaced) =
          (items.filter (!·.2.isExtension)).map (·.2.unplaced) →
        (Schema.ofItems others).toOption.map Schema.unplaced =
          (Schema.ofItems items).toOption.map Schema.unplaced) := by
  intro items own
  refine ⟨Schema.ofItems_absorbing rfl, fun others => ⟨?_, ?_⟩⟩
  · exact Schema.ofItems_rearranged
  · exact Schema.ofItems_moved

/-- A union of what can be found, with an extension in the text before it. -/
def beforeFound : List (Loaded SchemaItem) :=
  [(none, .extend ⟨⟨1, 8⟩, none, "Found", .union ["Note"]⟩),
    (none, .define ⟨⟨2, 1⟩, none, "Note", .object []
      [⟨⟨3, 3⟩, none, "text", .nonNull (.named "String")⟩]⟩)]

/-- What is loaded after it comes from a file, with another extension at its end. -/
def afterFound : List (Loaded SchemaItem) :=
  let file : Option SourcePath := some ⟨"pages.graphql"⟩
  [(file, .define ⟨⟨1, 1⟩, none, "Query", .object []
      [⟨⟨2, 3⟩, none, "find", .list (.named "Found")⟩]⟩),
    (file, .define ⟨⟨5, 1⟩, none, "Page", .object []
      [⟨⟨6, 3⟩, none, "notes", .list (.nonNull (.named "Note"))⟩]⟩),
    (file, .extend ⟨⟨8, 8⟩, none, "Found", .union ["Page"]⟩)]

/-- With its extensions and with their items in its definition the union is the same, apart from
the places of its members; loaded at the end, the extensions change nothing. -/
theorem found_extended_or_written :
    let decl (members : List String) : TypeDecl := ⟨⟨5, 1⟩, none, "Found", .union members⟩
    let items := beforeFound ++ (none, .define (decl ["Query"])) :: afterFound
    let atEnd := items.filter (!·.2.isExtension) ++ items.filter (·.2.isExtension)
    let written := beforeFound.drop 1 ++
      (none, .define (decl ["Query", "Note", "Page"])) :: afterFound.take 2
    ∃ schema other, Schema.ofItems items = .ok schema ∧ Schema.ofItems written = .ok other ∧
      schema ≠ other ∧ schema.unplaced = other.unplaced ∧
      Schema.ofItems atEnd = .ok schema := by
  intro decl items atEnd written
  obtain ⟨hMerged, hMoved⟩ :=
    extensions_equivalent_to_items beforeFound afterFound none (decl ["Query"])
  have hWritten := hMerged (by decide +kernel) (by decide +kernel)
  have hAtEnd := (hMoved atEnd).1 (by decide +kernel) (by decide +kernel)
  have hDiffer : (Schema.ofItems items).toOption.isSome = true ∧
      (Schema.ofItems items).toOption ≠ (Schema.ofItems written).toOption := by
    decide +kernel
  obtain ⟨schema, hSchema⟩ := Option.isSome_iff_exists.mp hDiffer.1
  obtain ⟨other, hOther, hSame⟩ : ∃ other, (Schema.ofItems written).toOption = some other ∧
      other.unplaced = schema.unplaced := by
    refine Option.map_eq_some_iff.mp (hWritten.trans ?_)
    rw [hSchema]
    rfl
  rw [hSchema, hOther] at hDiffer
  rw [Outcome.toOption_eq_some_iff] at hSchema hOther
  exact ⟨schema, other, hSchema, hOther, fun h => hDiffer.2 (congrArg some h), hSame.symm,
    hAtEnd.trans hSchema⟩

end ResponseModels
