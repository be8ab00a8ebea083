import ResponseModels.Schema.Draft
import ResponseModels.Proofs.Data.Association
import ResponseModels.Proofs.Data.Outcome
import Mathlib.Data.List.Nodup

/-! What a definition and an extension come to. Each can be refused for what it lists, and for
nothing else; where it is not refused, the type can be written down as it stands. -/
namespace ResponseModels

open GraphQL

namespace OrderedMap

variable {α β ε : Type}

theorem insert_of_new {m : OrderedMap α} {key : String} (h : key ∉ m.keys) (value : α) :
    m.insert key value = ⟨m.entries ++ [(key, value)]⟩ := by
  rw [insert, if_neg]
  rwa [contains_eq_true_iff]

theorem keys_concat (m : OrderedMap α) (entry : String × α) :
    (⟨m.entries ++ [entry]⟩ : OrderedMap α).keys = m.keys ++ [entry.1] := by
  simp [keys]

/-- Steps that each put a new entry behind the others, or else fail. -/
theorem foldlM_concat_eq_ok_iff {step : OrderedMap α → β → Except ε (OrderedMap α)}
    (entry : β → String × α) (allowed : β → Prop)
    (hStep : ∀ m item next, step m item = .ok next ↔
      allowed item ∧ (entry item).1 ∉ m.keys ∧ next = ⟨m.entries ++ [entry item]⟩)
    (items : List β) (m next : OrderedMap α) :
    items.foldlM step m = .ok next ↔
      (∀ item ∈ items, allowed item) ∧ (items.map fun item => (entry item).1).Nodup ∧
        m.keys.Disjoint (items.map fun item => (entry item).1) ∧
        next = ⟨m.entries ++ items.map entry⟩ := by
  induction items generalizing m with
  | nil =>
      rw [List.foldlM_nil, Outcome.pure_eq_ok_iff]
      simp
  | cons item rest ih =>
      rw [List.foldlM_cons, Outcome.bind_eq_ok_iff]
      simp only [hStep]
      constructor
      · rintro ⟨_, ⟨hAllowed, hNew, rfl⟩, hRest⟩
        obtain ⟨hAll, hDistinct, hDisjoint, rfl⟩ := (ih _).mp hRest
        rw [keys_concat, List.disjoint_append_left, List.singleton_disjoint] at hDisjoint
        refine ⟨List.forall_mem_cons.mpr ⟨hAllowed, hAll⟩,
          List.nodup_cons.mpr ⟨hDisjoint.2, hDistinct⟩,
          List.disjoint_cons_right.mpr ⟨hNew, hDisjoint.1⟩, ?_⟩
        simp
      · rintro ⟨hAll, hDistinct, hDisjoint, rfl⟩
        rw [List.forall_mem_cons] at hAll
        rw [List.map_cons, List.nodup_cons] at hDistinct
        rw [List.map_cons, List.disjoint_cons_right] at hDisjoint
        refine ⟨_, ⟨hAll.1, hDisjoint.1, rfl⟩, (ih _).mpr ⟨hAll.2, hDistinct.2, ?_, ?_⟩⟩
        · rw [keys_concat, List.disjoint_append_left, List.singleton_disjoint]
          exact ⟨hDisjoint.2, hDistinct.1⟩
        · simp

/-- Insert entries one after the other. -/
def insertAll (m : OrderedMap α) (entries : List (String × α)) : OrderedMap α :=
  entries.foldl (fun m entry => m.insert entry.1 entry.2) m

theorem ofList_append (entries more : List (String × α)) :
    ofList (entries ++ more) = (ofList entries).insertAll more :=
  List.foldl_append

end OrderedMap

namespace Draft

variable {file : Option SourcePath} {typeName : String} {location : Location}

/-- The entry that a declared field comes in as. -/
def fieldEntry (file : Option SourcePath) (typeName : String) (decl : FieldDecl) :
    String × Field :=
  (decl.name, fieldOf file typeName decl)

/-- The entry that a member of a union comes in as. -/
def memberEntry (location : Location) (member : String) : String × TypeRef :=
  (member, ⟨member, location⟩)

/-- Names that can be declared, one after the other, where others are known already. -/
structure Admits (known names : List String) : Prop where
  unreserved : ∀ name ∈ names, isReserved name = false
  distinct : names.Nodup
  fresh : known.Disjoint names

theorem Admits.nil (known : List String) : Admits known [] :=
  ⟨fun _ h => absurd h List.not_mem_nil, List.nodup_nil, List.disjoint_nil_right known⟩

theorem admits_append_iff (known names more : List String) :
    Admits known (names ++ more) ↔ Admits known names ∧ Admits (known ++ names) more := by
  constructor
  · rintro ⟨hUnreserved, hDistinct, hFresh⟩
    rw [List.forall_mem_append] at hUnreserved
    rw [List.nodup_append'] at hDistinct
    rw [List.disjoint_append_right] at hFresh
    exact ⟨⟨hUnreserved.1, hDistinct.1, hFresh.1⟩, hUnreserved.2, hDistinct.2.1,
      List.disjoint_append_left.mpr ⟨hFresh.2, hDistinct.2.2⟩⟩
  · rintro ⟨hNames, hMore⟩
    obtain ⟨hFresh, hDisjoint⟩ := List.disjoint_append_left.mp hMore.fresh
    exact ⟨List.forall_mem_append.mpr ⟨hNames.unreserved, hMore.unreserved⟩,
      List.nodup_append'.mpr ⟨hNames.distinct, hMore.distinct, hDisjoint⟩,
      List.disjoint_append_right.mpr ⟨hNames.fresh, hFresh⟩⟩

theorem admits_singleton_iff (known : List String) (name : String) :
    Admits known [name] ↔ isReserved name = false ∧ name ∉ known := by
  constructor
  · rintro ⟨hUnreserved, _, hFresh⟩
    exact ⟨hUnreserved name (List.mem_singleton.mpr rfl), List.disjoint_singleton.mp hFresh⟩
  · rintro ⟨hUnreserved, hNew⟩
    exact ⟨List.forall_mem_singleton.mpr hUnreserved, List.nodup_singleton name,
      List.disjoint_singleton.mpr hNew⟩

theorem addField_eq_ok_iff (fields : OrderedMap Field) (decl : FieldDecl)
    (next : OrderedMap Field) :
    addField file typeName fields decl = .ok next ↔
      isReserved decl.name = false ∧ decl.name ∉ fields.keys ∧
        next = ⟨fields.entries ++ [fieldEntry file typeName decl]⟩ := by
  unfold addField
  dsimp only
  split
  · rename_i hReserved
    simp [hReserved]
  · rename_i hReserved
    split
    · rename_i earlier hFound
      simp [OrderedMap.mem_keys_of_get? hFound]
    · rename_i hNew
      rw [OrderedMap.get?_eq_none_iff] at hNew
      rw [OrderedMap.insert_of_new hNew]
      simp [hNew, hReserved, fieldEntry, eq_comm]

theorem declaredFields_eq_ok_iff (decls : List FieldDecl) (fields : OrderedMap Field) :
    declaredFields file typeName decls = .ok fields ↔
      Admits [] (decls.map FieldDecl.name) ∧
        fields = ⟨decls.map (fieldEntry file typeName)⟩ := by
  unfold declaredFields
  rw [OrderedMap.foldlM_concat_eq_ok_iff (fieldEntry file typeName)
    (fun decl => isReserved decl.name = false) addField_eq_ok_iff]
  constructor
  · rintro ⟨hUnreserved, hDistinct, _, rfl⟩
    exact ⟨⟨List.forall_mem_map.mpr hUnreserved, hDistinct, List.disjoint_nil_left _⟩, rfl⟩
  · rintro ⟨hAdmits, rfl⟩
    exact ⟨List.forall_mem_map.mp hAdmits.unreserved, hAdmits.distinct,
      List.disjoint_nil_left _, rfl⟩

theorem includeField_eq_ok_iff (fields : OrderedMap Field) (entry : String × Field)
    (next : OrderedMap Field) :
    includeField typeName fields entry = .ok next ↔
      True ∧ entry.1 ∉ fields.keys ∧ next = ⟨fields.entries ++ [entry]⟩ := by
  unfold includeField
  split
  · rename_i earlier hFound
    simp [OrderedMap.mem_keys_of_get? hFound]
  · rename_i hNew
    rw [OrderedMap.get?_eq_none_iff] at hNew
    rw [OrderedMap.insert_of_new hNew]
    simp [hNew, eq_comm]

theorem addMember_eq_ok_iff (unionName : String) (members : OrderedMap TypeRef)
    (member : String) (next : OrderedMap TypeRef) :
    addMember unionName location members member = .ok next ↔
      True ∧ member ∉ members.keys ∧ next = ⟨members.entries ++ [memberEntry location member]⟩ := by
  unfold addMember
  split
  · rename_i hKnown
    rw [OrderedMap.contains_eq_true_iff] at hKnown
    simp [hKnown]
  · rename_i hNew
    rw [OrderedMap.contains_eq_true_iff] at hNew
    rw [OrderedMap.insert_of_new hNew]
    simp [hNew, memberEntry, eq_comm]

/-- The object or interface type that a definition stands for. -/
def writtenFielded (file : Option SourcePath) (decl : TypeDecl) (interfaces : List String)
    (fields : List FieldDecl) : FieldedType :=
  let location := Location.ofSchema file decl.position
  { location := location
    description := decl.description
    fields := ⟨("__typename", .typename decl.name location) ::
      fields.map (fieldEntry file decl.name)⟩
    interfaces := interfaces.map (⟨·, location⟩)
    name := decl.name }

/-- The type that a definition stands for. -/
def written (file : Option SourcePath) (decl : TypeDecl) : SchemaType :=
  let location := Location.ofSchema file decl.position
  match decl.body with
  | .scalar => .scalar ⟨location, decl.description, decl.name⟩
  | .object interfaces fields => .object (writtenFielded file decl interfaces fields)
  | .interface interfaces fields => .interface (writtenFielded file decl interfaces fields)
  | .union members =>
    .union ⟨location, decl.description, decl.name, ⟨members.map (memberEntry location)⟩⟩
  | .enum values => .enum ⟨location, decl.description, decl.name, values⟩
  | .input fields =>
    .input ⟨location, decl.description, .ofList (fields.map (inputField file)), decl.name⟩

/-- Nothing is wrong with what a definition lists. -/
def Declarable : TypeBody → Prop
  | .object _ fields => Admits [] (fields.map FieldDecl.name)
  | .interface _ fields => Admits [] (fields.map FieldDecl.name)
  | .union members => members.Nodup
  | _ => True

theorem fieldedTypeOf_eq_ok_iff (decl : TypeDecl) (interfaces : List String)
    (fields : List FieldDecl) (type : FieldedType) :
    fieldedTypeOf file decl interfaces fields = .ok type ↔
      Admits [] (fields.map FieldDecl.name) ∧
        type = writtenFielded file decl interfaces fields := by
  exact Outcome.map_eq_ok_iff_of (declaredFields_eq_ok_iff fields) _ type

theorem addMembers_eq_ok_iff (unionName : String) (members : List String)
    (all : OrderedMap TypeRef) :
    members.foldlM (addMember unionName location) .empty = .ok all ↔
      members.Nodup ∧ all = ⟨members.map (memberEntry location)⟩ := by
  rw [OrderedMap.foldlM_concat_eq_ok_iff (memberEntry location) (fun _ => True)
    (addMember_eq_ok_iff unionName)]
  simp [memberEntry, OrderedMap.empty, OrderedMap.keys]

/-- A definition is refused for what it lists, or stands for the type that is written. -/
theorem typeOf_eq_ok_iff (decl : TypeDecl) (type : SchemaType) :
    typeOf file decl = .ok type ↔ Declarable decl.body ∧ type = written file decl := by
  unfold typeOf written Declarable
  cases decl.body with
  | object interfaces fields =>
      exact Outcome.map_eq_ok_iff_of (fieldedTypeOf_eq_ok_iff decl interfaces fields) _ type
  | interface interfaces fields =>
      exact Outcome.map_eq_ok_iff_of (fieldedTypeOf_eq_ok_iff decl interfaces fields) _ type
  | union members =>
      exact Outcome.map_eq_ok_iff_of (addMembers_eq_ok_iff decl.name members) _ type
  | scalar => simp
  | enum values => simp
  | input fields =>
      simp only [Outcome.pure_eq_ok_iff, true_and]
      rfl

/-- An object or interface type with the items of an extension behind its own. -/
def extendedFielded (file : Option SourcePath) (location : Location) (type : FieldedType)
    (interfaces : List String) (fields : List FieldDecl) : FieldedType :=
  { type with
    fields := ⟨type.fields.entries ++ fields.map (fieldEntry file type.name)⟩
    interfaces := type.interfaces ++ interfaces.map (⟨·, location⟩) }

/-- The type with the items of an extension of its kind. Any other extension leaves it alone. -/
def extended (file : Option SourcePath) (decl : TypeDecl) (type : SchemaType) : SchemaType :=
  let location := Location.ofSchema file decl.position
  match type, decl.body with
  | .enum type, .enum values => .enum { type with values := type.values ++ values }
  | .interface type, .interface interfaces fields =>
    .interface (extendedFielded file location type interfaces fields)
  | .object type, .object interfaces fields =>
    .object (extendedFielded file location type interfaces fields)
  | .union type, .union members =>
    .union { type with members := type.members.insertAll (members.map (memberEntry location)) }
  | .input type, .input fields =>
    .input { type with fields := type.fields.insertAll (fields.map (inputField file)) }
  | type, _ => type

/-- The extension is of the type's kind, and its fields can come in behind those of the type.
Members of unions and input fields are not looked at. -/
def Extends (body : TypeBody) (type : SchemaType) : Prop :=
  match type, body with
  | .enum _, .enum _ => True
  | .interface type, .interface _ fields => Admits type.fields.keys (fields.map FieldDecl.name)
  | .object type, .object _ fields => Admits type.fields.keys (fields.map FieldDecl.name)
  | .scalar _, .scalar => True
  | .union _, .union _ => True
  | .input _, .input _ => True
  | _, _ => False

theorem extendFielded_eq_ok_iff (type : FieldedType) (interfaces : List String)
    (fields : List FieldDecl) (next : FieldedType) :
    extendFielded file location type interfaces fields = .ok next ↔
      Admits type.fields.keys (fields.map FieldDecl.name) ∧
        next = extendedFielded file location type interfaces fields := by
  unfold extendFielded
  simp only [Outcome.bind_eq_ok_iff, Outcome.pure_eq_ok_iff, declaredFields_eq_ok_iff,
    OrderedMap.foldlM_concat_eq_ok_iff id (fun _ => True) includeField_eq_ok_iff, List.map_id]
  constructor
  · rintro ⟨_, ⟨hAdmits, rfl⟩, _, ⟨_, _, hFresh, rfl⟩, rfl⟩
    refine ⟨⟨hAdmits.unreserved, hAdmits.distinct, ?_⟩, rfl⟩
    rwa [List.map_map] at hFresh
  · rintro ⟨hAdmits, rfl⟩
    refine ⟨_, ⟨⟨hAdmits.unreserved, hAdmits.distinct, List.disjoint_nil_left _⟩, rfl⟩, _,
      ⟨fun _ _ => trivial, ?_, ?_, rfl⟩, rfl⟩
    · rw [List.map_map]
      exact hAdmits.distinct
    · rw [List.map_map]
      exact hAdmits.fresh

/-- An extension is refused for its kind and its fields, or yields the extended type. -/
theorem extendType_eq_ok_iff (decl : TypeDecl) (type next : SchemaType) :
    extendType file decl type = .ok next ↔
      Extends decl.body type ∧ next = extended file decl type := by
  unfold extendType extended Extends
  generalize decl.body = body
  dsimp only
  split
  · simp
  · exact Outcome.map_eq_ok_iff_of (extendFielded_eq_ok_iff _ _ _) _ next
  · exact Outcome.map_eq_ok_iff_of (extendFielded_eq_ok_iff _ _ _) _ next
  · simp
  · simp only [Outcome.pure_eq_ok_iff, true_and, OrderedMap.insertAll, List.foldl_map]
    rfl
  · simp only [Outcome.pure_eq_ok_iff, true_and, addInputFields, OrderedMap.insertAll,
      List.foldl_map]
  · rename_i hEnum hInterface hObject hScalar hUnion hInput
    split <;> simp_all

end Draft

end ResponseModels
