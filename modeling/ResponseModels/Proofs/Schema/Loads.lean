import ResponseModels.Proofs.Schema.Declaring
import ResponseModels.Proofs.Schema.WellFormed

/-! What a sequence of loads comes to. Definitions, schema blocks and extensions may stand mixed
in any order; the schema depends on each of the three lists alone. It can be written down from
them: every defined type takes the extensions of its name in load order, and what is left to do is
to check the references and to settle the root types. -/
namespace ResponseModels

open GraphQL

namespace OrderedMap

variable {α β : Type}

/-- Change every value, with its key in view. -/
def mapWithKey (change : String → α → β) (m : OrderedMap α) : OrderedMap β :=
  ⟨m.entries.map fun entry => (entry.1, change entry.1 entry.2)⟩

@[simp] theorem keys_mapWithKey (change : String → α → β) (m : OrderedMap α) :
    (m.mapWithKey change).keys = m.keys := by
  simp [mapWithKey, keys]

theorem mapWithKey_mapWithKey {γ : Type} (change : String → α → β) (more : String → β → γ)
    (m : OrderedMap α) :
    (m.mapWithKey change).mapWithKey more =
      m.mapWithKey fun key value => more key (change key value) := by
  simp [mapWithKey]

theorem replace_eq_mapWithKey {m : OrderedMap α} (hKeys : m.keys.Nodup) {key : String} {value : α}
    (h : m.get? key = some value) (change : α → α) :
    m.replace key (change value) =
      m.mapWithKey fun name value => if name = key then change value else value := by
  simp only [replace, mapWithKey]
  congr 1
  apply List.map_congr_left
  rintro ⟨name, found⟩ hEntry
  by_cases hSame : name = key
  · subst hSame
    rw [get?_of_mem_entries hKeys hEntry, Option.some_inj] at h
    simp [h]
  · simp [hSame]

end OrderedMap

/-- Does the item extend a type that is defined elsewhere? -/
def GraphQL.SchemaItem.isExtension : SchemaItem → Bool
  | .extend _ => true
  | _ => false

/-- What a schema text holds, with the file that the text is from. -/
abbrev Loaded (α : Type) := Option SourcePath × α

namespace Loads

/-- The type definitions among loaded items. -/
def definitions (items : List (Loaded SchemaItem)) : List (Loaded TypeDecl) :=
  items.filterMap fun
    | (file, .define decl) => some (file, decl)
    | _ => none

/-- The type extensions among loaded items. -/
def extensions (items : List (Loaded SchemaItem)) : List (Loaded TypeDecl) :=
  items.filterMap fun
    | (file, .extend decl) => some (file, decl)
    | _ => none

/-- The schema blocks among loaded items. -/
def schemaBlocks (items : List (Loaded SchemaItem)) : List (Loaded RootsDecl) :=
  items.filterMap fun
    | (file, .roots decl) => some (file, decl)
    | _ => none

/-- The declarations of one name. -/
def named (name : String) (decls : List (Loaded TypeDecl)) : List (Loaded TypeDecl) :=
  decls.filter (·.2.name == name)

theorem named_cons (name : String) (decl : Loaded TypeDecl) (rest : List (Loaded TypeDecl)) :
    named name (decl :: rest) =
      if name = decl.2.name then decl :: named name rest else named name rest := by
  rw [named, List.filter_cons]
  simp only [beq_iff_eq, eq_comm (a := decl.2.name)]
  rfl

theorem named_eq_nil_iff (name : String) (decls : List (Loaded TypeDecl)) :
    named name decls = [] ↔ ∀ decl ∈ decls, decl.2.name ≠ name := by
  simp [named]

end Loads

/-- The root types that schema blocks name. -/
structure Roots where
  mutation : Option TypeRef := none
  query : Option TypeRef := none
  subscription : Option TypeRef := none

/-- Take in the root types of one more schema block. -/
def Roots.take (roots : Roots) (block : Loaded RootsDecl) : Except SchemaError Roots := do
  let location := Location.ofSchema block.1 block.2.position
  let query ← Draft.setRoot "query" location roots.query block.2.query
  let mutation ← Draft.setRoot "mutation" location roots.mutation block.2.mutation
  let subscription ←
    Draft.setRoot "subscription" location roots.subscription block.2.subscription
  return ⟨mutation, query, subscription⟩

namespace Draft

def roots (draft : Draft) : Roots := ⟨draft.mutation, draft.query, draft.subscription⟩

/-- Take in loaded items in their order, up to the first that is wrong. -/
def takeAll (draft : Draft) (items : List (Loaded SchemaItem)) : Except SchemaError Draft :=
  items.foldlM (fun draft item => add item.1 draft item.2) draft

/-- Check every reference of the types, and settle the root types. -/
def finish (roots : Roots) (types : OrderedMap SchemaType) : Except SchemaError Schema := do
  types.values.forM (checkType types)
  match (← resolveRoot types .query roots.query) with
  | none => throw .noQueryRoot
  | some query =>
    let mutation ← resolveRoot types .mutation roots.mutation
    let subscription ← resolveRoot types .subscription roots.subscription
    return ⟨mutation, query, subscription, types⟩

theorem build_eq_finish (draft : Draft) :
    draft.build = draft.extensions.foldlM extend draft.types >>= finish draft.roots :=
  rfl

end Draft

/-- The schema that loaded items come to. -/
def Schema.ofItems (items : List (Loaded SchemaItem)) : Except SchemaError Schema :=
  Draft.initial.takeAll items >>= Draft.build

namespace Draft

/-- The draft with other extensions, and another count of texts without a file. -/
def setAside (extensions : List (Loaded TypeDecl)) (count : UInt16) (draft : Draft) : Draft :=
  { draft with extensions := extensions, unnamedLoads := count }

/-- What becomes of an item depends on the types and the roots so far, and on nothing else. -/
theorem add_setAside (file : Option SourcePath) (draft : Draft) (item : SchemaItem)
    (extensions : List (Loaded TypeDecl)) (count : UInt16) (hItem : item.isExtension = false) :
    add file (draft.setAside extensions count) item =
      (add file draft item).map (setAside extensions count) := by
  cases item with
  | roots decl =>
      simp only [add, setRoots, setAside]
      cases setRoot "query" (.ofSchema file decl.position) draft.query decl.query with
      | error cause => rfl
      | ok query =>
          cases setRoot "mutation" (.ofSchema file decl.position) draft.mutation
              decl.mutation with
          | error cause => rfl
          | ok mutation =>
              cases setRoot "subscription" (.ofSchema file decl.position) draft.subscription
                  decl.subscription with
              | error cause => rfl
              | ok subscription => rfl
  | define decl =>
      simp only [add, define, setAside]
      cases typeOf file decl with
      | error cause => rfl
      | ok type =>
          cases isReserved decl.name with
          | true => rfl
          | false =>
              simp only [bind, Except.bind, Bool.false_eq_true, if_false, pure, Except.pure]
              cases draft.types.get? decl.name with
              | none => rfl
              | some earlier => rfl
  | extend decl => cases hItem
  | directive => rfl

/-- Extensions are put by, in their order, and the other items never see them. -/
theorem takeAll_setAside (items : List (Loaded SchemaItem)) (draft : Draft)
    (extensions : List (Loaded TypeDecl)) (count : UInt16) :
    (draft.setAside extensions count).takeAll items =
      (draft.takeAll (items.filter (!·.2.isExtension))).map
        (setAside (extensions ++ Loads.extensions items) count) := by
  induction items generalizing draft extensions with
  | nil => simp [takeAll, Loads.extensions, Except.map, pure, Except.pure]
  | cons item rest ih =>
      obtain ⟨file, item⟩ := item
      cases hItem : item.isExtension with
      | true =>
          cases item with
          | extend decl =>
              have hRest := ih draft (extensions ++ [(file, decl)])
              rw [List.append_assoc] at hRest
              rw [List.filter_cons_of_neg (by simp [SchemaItem.isExtension])]
              exact hRest
          | _ => cases hItem
      | false =>
          have hExtensions : Loads.extensions ((file, item) :: rest) = Loads.extensions rest := by
            cases item with
            | extend decl => cases hItem
            | _ => rfl
          rw [List.filter_cons_of_pos (by simp [hItem]), hExtensions, takeAll, takeAll,
            List.foldlM_cons, List.foldlM_cons, add_setAside _ _ _ _ _ hItem]
          cases add file draft item with
          | error cause => rfl
          | ok next => exact ih next extensions

end Draft

/-- Where extensions stand among the other items plays no part. -/
theorem Schema.ofItems_eq_of_alike {items others : List (Loaded SchemaItem)}
    (hExtensions : Loads.extensions items = Loads.extensions others)
    (hRest : items.filter (!·.2.isExtension) = others.filter (!·.2.isExtension)) :
    Schema.ofItems items = Schema.ofItems others := by
  have hTake : ∀ items, Draft.initial.takeAll items =
      (Draft.initial.takeAll (items.filter (!·.2.isExtension))).map
        (Draft.setAside (Loads.extensions items) 0) :=
    fun items => Draft.takeAll_setAside items Draft.initial [] 0
  rw [ofItems, ofItems, hTake items, hTake others, hExtensions, hRest]

namespace Draft

/-- The draft without its count of texts. -/
def uncounted (draft : Draft) : Draft := draft.setAside draft.extensions 0

theorem takeAll_uncounted (draft : Draft) (items : List (Loaded SchemaItem)) :
    (draft.takeAll items).map uncounted = draft.uncounted.takeAll items := by
  have hOwn := takeAll_setAside items draft draft.extensions draft.unnamedLoads
  have hNone := takeAll_setAside items draft draft.extensions 0
  rw [uncounted, hNone]
  refine (congrArg (Except.map uncounted) hOwn).trans ?_
  cases draft.takeAll (items.filter (!·.2.isExtension)) <;> rfl

theorem addAll_uncounted (draft : Draft) (count : UInt16) (file : Option SourcePath)
    (items : List SchemaItem) :
    ({ draft with unnamedLoads := count }.addAll file items).map uncounted =
      draft.uncounted.takeAll (items.map (file, ·)) := by
  have hAll : { draft with unnamedLoads := count }.addAll file items =
      { draft with unnamedLoads := count }.takeAll (items.map (file, ·)) := by
    rw [addAll, takeAll, List.foldlM_map]
  rw [hAll, takeAll_uncounted]
  rfl

theorem takeAll_append (draft : Draft) (items more : List (Loaded SchemaItem)) :
    draft.takeAll (items ++ more) = draft.takeAll items >>= (takeAll · more) :=
  List.foldlM_append

/-- Loads come to the items of their texts, one after the other. -/
theorem Drafted.exists_items {draft : Draft} (h : Drafted draft) :
    ∃ items, Draft.initial.takeAll items = .ok draft.uncounted := by
  induction h with
  | initial => exact ⟨[], rfl⟩
  | @load draft next prior count file items loaded ih =>
      obtain ⟨earlier, hEarlier⟩ := ih
      refine ⟨earlier ++ items.map (file, ·), ?_⟩
      rw [takeAll_append, hEarlier]
      refine (addAll_uncounted draft count file items).symm.trans ?_
      rw [loaded]
      rfl

/-- The items that are read from a text. -/
def Reads (text : Loaded String) (items : List (Loaded SchemaItem)) : Prop :=
  ∃ read, readTypeSystem? text.2 = some read ∧ items = read.map (text.1, ·)

theorem load_uncounted {text : Loaded String} {items : List (Loaded SchemaItem)}
    (h : Reads text items) (draft : Draft) :
    (draft.load text.1 text.2).map uncounted = draft.uncounted.takeAll items := by
  obtain ⟨read, hRead, rfl⟩ := h
  unfold load
  rw [hRead]
  exact addAll_uncounted draft _ text.1 read

theorem loads_uncounted {texts : List (Loaded String)} {loads : List (List (Loaded SchemaItem))}
    (h : List.Forall₂ Reads texts loads) (draft : Draft) :
    (texts.foldlM (fun (draft : Draft) text => draft.load text.1 text.2) draft).map uncounted =
      draft.uncounted.takeAll loads.flatten := by
  induction h generalizing draft with
  | nil => rfl
  | @cons text items texts loads hText _ ih =>
      rw [List.foldlM_cons, List.flatten_cons, takeAll_append, ← load_uncounted hText draft]
      cases draft.load text.1 text.2 with
      | error cause => rfl
      | ok next => exact ih next

end Draft

/-- A schema that is built from texts is the one that their items come to. -/
theorem Schema.build_texts {texts : List (Loaded String)}
    {loads : List (List (Loaded SchemaItem))} (h : List.Forall₂ Draft.Reads texts loads) :
    texts.foldlM (fun (draft : Draft) text => draft.load text.1 text.2) Draft.initial >>=
      Draft.build = Schema.ofItems loads.flatten := by
  refine Eq.trans ?_ (congrArg (· >>= Draft.build) (Draft.loads_uncounted h Draft.initial))
  cases texts.foldlM (fun (draft : Draft) text => draft.load text.1 text.2) Draft.initial <;> rfl

/-- Schemas are built from items, whatever texts the items are from. -/
theorem Schema.built_iff (schema : Schema) :
    schema.Built ↔ ∃ items, Schema.ofItems items = .ok schema := by
  constructor
  · rintro ⟨draft, hDrafted, hBuild⟩
    obtain ⟨items, hItems⟩ := hDrafted.exists_items
    refine ⟨items, ?_⟩
    rw [ofItems, hItems]
    exact hBuild
  · rintro ⟨items, hItems⟩
    rw [ofItems, Outcome.bind_eq_ok_iff] at hItems
    obtain ⟨draft, hDraft, hBuild⟩ := hItems
    refine ⟨draft, ?_, hBuild⟩
    refine Outcome.foldlM_keeps (P := Draft.Drafted) ?_ .initial hDraft
    intro draft item next _ hDrafted hNext
    refine hDrafted.load draft.unnamedLoads item.1 [item.2] ?_
    rw [Draft.addAll, List.foldlM_cons, Outcome.bind_eq_ok_iff]
    exact ⟨next, hNext, rfl⟩

namespace Draft

/-- The entry that a definition comes in as. -/
def typeEntry (definition : Loaded TypeDecl) : String × SchemaType :=
  (definition.2.name, written definition.1 definition.2)

/-- Definitions that can come in behind types of known names. -/
structure Definable (known : List String) (definitions : List (Loaded TypeDecl)) : Prop where
  names : Admits known (definitions.map (·.2.name))
  bodies : ∀ definition ∈ definitions, Declarable definition.2.body

theorem definable_nil (known : List String) : Definable known [] :=
  ⟨.nil known, fun _ h => absurd h List.not_mem_nil⟩

theorem definable_cons_iff (known : List String) (definition : Loaded TypeDecl)
    (rest : List (Loaded TypeDecl)) :
    Definable known (definition :: rest) ↔
      (Declarable definition.2.body ∧ isReserved definition.2.name = false ∧
        definition.2.name ∉ known) ∧ Definable (known ++ [definition.2.name]) rest := by
  rw [← admits_singleton_iff]
  constructor
  · rintro ⟨hNames, hBodies⟩
    obtain ⟨hFirst, hRest⟩ := (admits_append_iff _ [_] _).mp hNames
    rw [List.forall_mem_cons] at hBodies
    exact ⟨⟨hBodies.1, hFirst⟩, hRest, hBodies.2⟩
  · rintro ⟨⟨hBody, hFirst⟩, hRest⟩
    exact ⟨(admits_append_iff _ [_] _).mpr ⟨hFirst, hRest.names⟩,
      List.forall_mem_cons.mpr ⟨hBody, hRest.bodies⟩⟩

theorem define_eq_ok_iff (draft : Draft) (file : Option SourcePath) (decl : TypeDecl)
    (next : Draft) :
    draft.define file decl = .ok next ↔
      (Declarable decl.body ∧ isReserved decl.name = false ∧ decl.name ∉ draft.types.keys) ∧
        next = { draft with types := ⟨draft.types.entries ++ [typeEntry (file, decl)]⟩ } := by
  unfold define
  rw [Outcome.bind_eq_ok_iff]
  simp only [typeOf_eq_ok_iff]
  cases hReserved : isReserved decl.name with
  | true =>
      simp only [Bool.true_eq_false, false_and, and_false, iff_false]
      rintro ⟨_, _, h⟩
      cases h
  | false =>
      cases hFound : draft.types.get? decl.name with
      | some earlier => simp [OrderedMap.mem_keys_of_get? hFound]
      | none =>
          rw [OrderedMap.get?_eq_none_iff] at hFound
          simp only [OrderedMap.insert_of_new hFound]
          constructor
          · rintro ⟨_, ⟨hDeclarable, rfl⟩, h⟩
            cases h
            exact ⟨⟨hDeclarable, trivial, hFound⟩, rfl⟩
          · rintro ⟨⟨hDeclarable, _, _⟩, rfl⟩
            exact ⟨_, ⟨hDeclarable, rfl⟩, rfl⟩

theorem setRoots_eq_ok_iff (draft : Draft) (file : Option SourcePath) (decl : RootsDecl)
    (next : Draft) :
    draft.setRoots file decl = .ok next ↔
      ∃ roots, draft.roots.take (file, decl) = .ok roots ∧
        next = { draft with
          mutation := roots.mutation
          query := roots.query
          subscription := roots.subscription } := by
  unfold setRoots Roots.take
  simp only [Outcome.bind_eq_ok_iff, Outcome.pure_eq_ok_iff]
  constructor
  · rintro ⟨query, hQuery, mutation, hMutation, subscription, hSubscription, rfl⟩
    exact ⟨_, ⟨query, hQuery, mutation, hMutation, subscription, hSubscription, rfl⟩, rfl⟩
  · rintro ⟨_, ⟨query, hQuery, mutation, hMutation, subscription, hSubscription, rfl⟩, rfl⟩
    exact ⟨query, hQuery, mutation, hMutation, subscription, hSubscription, rfl⟩

/-- The draft after items that are all taken in, with the roots that they leave. -/
def grown (draft : Draft) (roots : Roots) (items : List (Loaded SchemaItem)) : Draft where
  extensions := draft.extensions ++ Loads.extensions items
  mutation := roots.mutation
  query := roots.query
  subscription := roots.subscription
  unnamedLoads := draft.unnamedLoads
  types := ⟨draft.types.entries ++ (Loads.definitions items).map typeEntry⟩

/-- Items are all taken in exactly if the definitions can be, and the schema blocks can be. -/
theorem takeAll_eq_ok_iff (items : List (Loaded SchemaItem)) (draft next : Draft) :
    draft.takeAll items = .ok next ↔
      Definable draft.types.keys (Loads.definitions items) ∧
        ∃ roots, (Loads.schemaBlocks items).foldlM Roots.take draft.roots = .ok roots ∧
          next = draft.grown roots items := by
  induction items generalizing draft with
  | nil =>
      have hGrown : draft.grown draft.roots [] = draft := by
        simp [grown, roots, Loads.definitions, Loads.extensions]
      simp only [takeAll, Loads.definitions, Loads.schemaBlocks, List.filterMap_nil,
        List.foldlM_nil, Outcome.pure_eq_ok_iff, exists_eq_left, hGrown, definable_nil, true_and]
  | cons item rest ih =>
      obtain ⟨file, item⟩ := item
      have hHead : draft.takeAll ((file, item) :: rest) =
          add file draft item >>= (takeAll · rest) :=
        List.foldlM_cons
      rw [hHead, Outcome.bind_eq_ok_iff]
      simp only [ih]
      cases item with
      | roots decl =>
          have hBlocks : (Loads.schemaBlocks ((file, .roots decl) :: rest)).foldlM Roots.take
              draft.roots = draft.roots.take (file, decl) >>=
                ((Loads.schemaBlocks rest).foldlM Roots.take ·) :=
            List.foldlM_cons
          simp only [add, setRoots_eq_ok_iff, hBlocks, Outcome.bind_eq_ok_iff]
          constructor
          · rintro ⟨_, ⟨roots, hRoots, rfl⟩, hDefinable, final, hFinal, rfl⟩
            exact ⟨hDefinable, final, ⟨roots, hRoots, hFinal⟩, rfl⟩
          · rintro ⟨hDefinable, final, ⟨roots, hRoots, hFinal⟩, rfl⟩
            exact ⟨_, ⟨roots, hRoots, rfl⟩, hDefinable, final, hFinal, rfl⟩
      | define decl =>
          have hKeys := draft.types.keys_concat (typeEntry (file, decl))
          have hGrown : ∀ roots,
              { draft with types := ⟨draft.types.entries ++ [typeEntry (file, decl)]⟩ }.grown
                roots rest = draft.grown roots ((file, .define decl) :: rest) := by
            intro roots
            simp [grown, Loads.definitions, Loads.extensions]
          simp only [add, define_eq_ok_iff]
          constructor
          · rintro ⟨_, ⟨hDefine, rfl⟩, hDefinable, roots, hRoots, rfl⟩
            rw [hKeys] at hDefinable
            exact ⟨(definable_cons_iff _ _ _).mpr ⟨hDefine, hDefinable⟩, roots, hRoots,
              hGrown roots⟩
          · rintro ⟨hDefinable, roots, hRoots, rfl⟩
            obtain ⟨hDefine, hRest⟩ := (definable_cons_iff _ (file, decl) _).mp hDefinable
            refine ⟨_, ⟨hDefine, rfl⟩, ?_, roots, hRoots, (hGrown roots).symm⟩
            rwa [hKeys]
      | extend decl =>
          have hGrown : ∀ roots,
              { draft with extensions := draft.extensions ++ [(file, decl)] }.grown roots rest =
                draft.grown roots ((file, .extend decl) :: rest) := by
            intro roots
            simp [grown, Loads.definitions, Loads.extensions]
          simp only [add, Except.ok.injEq, exists_eq_left', hGrown]
          rfl
      | directive =>
          simp only [add, Except.ok.injEq, exists_eq_left']
          rfl

end Draft

end ResponseModels
