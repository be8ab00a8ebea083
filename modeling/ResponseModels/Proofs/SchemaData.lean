import ResponseModels.Schema.Serial
import ResponseModels.Proofs.Nullability

/-! Schemas written to plain data and read back. What is read back is the schema that was written,
in the order of its types, fields and members, whatever its references lead to. -/
namespace ResponseModels

namespace Datum

variable {α : Type} {write : α → Datum} {read : Datum → Option α}

theorem nat?_int {bound value : Nat} (h : value ≤ bound) :
    (Datum.int value).nat? bound = some value := by
  have hWithin : (0 : Int) ≤ value ∧ (value : Int) ≤ bound := by omega
  rw [nat?, if_pos hWithin, Int.toNat_natCast]

/-- What is there is told from what is not, as long as it is not itself written as `null`. -/
theorem optional?_ofOption {value : Option α} (hNull : ∀ item, write item ≠ .null)
    (h : ∀ item ∈ value, read (write item) = some item) :
    optional? read (some (ofOption write value)) = some value := by
  cases value with
  | none => rfl
  | some item =>
      rw [ofOption, optional?, h item rfl, Option.map_some]
      exact hNull item

theorem mapM_map {β : Type} {items : List β} {write : β → Datum} {read : Datum → Option β}
    (h : ∀ item ∈ items, read (write item) = some item) :
    (items.map write).mapM read = some items := by
  induction items with
  | nil => rfl
  | cons first rest ih =>
      have hFirst := h first (by simp)
      have hRest := ih fun item hItem => h item (by simp [hItem])
      simp [hFirst, hRest]

theorem list?_array {items : List α} (h : ∀ item ∈ items, read (write item) = some item) :
    (Datum.array (items.map write)).list? read = some items :=
  mapM_map h

/-- The pairs are read in their order, so a map with distinct keys comes out as it went in. -/
theorem map?_ofMap {m : OrderedMap α} (hKeys : m.keys.Nodup)
    (h : ∀ entry ∈ m.entries, read (write entry.2) = some entry.2) :
    (ofMap write m).map? read = some m := by
  have hPairs : (m.entries.map fun entry => Datum.array [.string entry.1, write entry.2]).mapM
      (pair? read) = some m.entries := by
    refine mapM_map fun entry hEntry => ?_
    rw [pair?, h entry hEntry, Option.map_some]
  have hEntries : OrderedMap.ofList m.entries = m := OrderedMap.ofList_eq _ hKeys
  simp [map?, ofMap, array?, hPairs, hEntries]

end Datum

/-! What can be written: the keys of a map differ, and lines and columns are numbers of 64 bits. -/

/-- The keys differ, and each value can be written. -/
def OrderedMap.Storable {α : Type} (storable : α → Prop) (m : OrderedMap α) : Prop :=
  m.keys.Nodup ∧ ∀ entry ∈ m.entries, storable entry.2

theorem OrderedMap.Storable.map?_ofMap {α : Type} {storable : α → Prop} {write : α → Datum}
    {read : Datum → Option α} {m : OrderedMap α} (hMap : m.Storable storable)
    (h : ∀ {value}, storable value → read (write value) = some value) :
    (Datum.ofMap write m).map? read = some m :=
  Datum.map?_ofMap hMap.1 fun entry hEntry => h (hMap.2 entry hEntry)

def FilePosition.Storable (p : FilePosition) : Prop :=
  p.column ≤ coordinateBound ∧ p.line ≤ coordinateBound

theorem FilePosition.ofDatum?_toDatum {p : FilePosition} (h : p.Storable) :
    ofDatum? p.toDatum = some p := by
  simp [ofDatum?, toDatum, Datum.members?, Datum.named?, List.lookup_cons, Datum.string?,
    Datum.nat?_int h.1, Datum.nat?_int h.2]

namespace Location

def Storable (location : Location) : Prop := ∀ p ∈ location.filePosition?, p.Storable

theorem ofDatum?_toDatum {location : Location} (h : location.Storable) :
    ofDatum? location.toDatum = some location := by
  cases location with
  | builtIn => rfl
  | schema => rfl
  | document p =>
      have hPlace := FilePosition.ofDatum?_toDatum (h p rfl)
      simp [ofDatum?, toDatum, Datum.tagged, Datum.tagged?, hPlace]
  | schemaFile p =>
      have hPlace := FilePosition.ofDatum?_toDatum (h p rfl)
      simp [ofDatum?, toDatum, Datum.tagged, Datum.tagged?, hPlace]

end Location

theorem Datum.optional?_string (text : Option String) :
    optional? string? (some (ofOption .string text)) = some text :=
  optional?_ofOption (by simp) fun _ _ => rfl

namespace TypeRef

def Storable (ref : TypeRef) : Prop := ref.location.Storable

theorem ofDatum?_toDatum {ref : TypeRef} (h : ref.Storable) : ofDatum? ref.toDatum = some ref := by
  simp [ofDatum?, toDatum, Datum.members?, Datum.named?, List.lookup_cons, Datum.string?,
    Location.ofDatum?_toDatum h]

theorem optional?_ofOption {ref : Option TypeRef} (h : ∀ item ∈ ref, item.Storable) :
    Datum.optional? ofDatum? (some (.ofOption toDatum ref)) = some ref :=
  Datum.optional?_ofOption (by simp [toDatum]) fun item hItem => ofDatum?_toDatum (h item hItem)

end TypeRef

namespace Annotation

def Storable : Annotation → Prop
  | .list item _ location => item.Storable ∧ location.Storable
  | .named _ type => type.Storable

/-- Every list is written as a record inside a record. -/
theorem listDepth_le_depth (type : Annotation) : type.listDepth ≤ type.toDatum.depth := by
  induction type with
  | named nullable ref => exact Nat.zero_le _
  | list item nullable location ih =>
      simp only [listDepth, toDatum, Datum.tagged, Datum.depth, Datum.depthOfMembers]
      omega

theorem ofDatumWithin?_toDatum {type : Annotation} {depth : Nat} (h : type.Storable)
    (hDepth : type.listDepth ≤ depth) :
    ofDatumWithin? (depth + 1) type.toDatum = some type := by
  induction type generalizing depth with
  | named nullable ref =>
      have hRef : TypeRef.ofDatum? ref.toDatum = some ref := TypeRef.ofDatum?_toDatum h
      simp [ofDatumWithin?, toDatum, Datum.tagged, Datum.tagged?, namedOfDatum?, Datum.members?,
        Datum.named?, List.lookup_cons, Datum.bool?, hRef]
  | list item nullable location ih =>
      obtain ⟨depth, rfl⟩ := Nat.exists_eq_succ_of_ne_zero (Nat.ne_zero_of_lt hDepth)
      have hItem := ih h.1 (Nat.le_of_succ_le_succ hDepth)
      have hLocation := Location.ofDatum?_toDatum h.2
      rw [ofDatumWithin?]
      simp [toDatum, Datum.tagged, Datum.tagged?, listMembers?, Datum.members?, Datum.named?,
        List.lookup_cons, Datum.bool?, hItem, hLocation]

theorem ofDatum?_toDatum {type : Annotation} (h : type.Storable) :
    ofDatum? type.toDatum = some type :=
  ofDatumWithin?_toDatum h type.listDepth_le_depth

end Annotation

namespace Field

def Storable (field : Field) : Prop :=
  field.location.Storable ∧ field.parent.Storable ∧ field.annotation.Storable

theorem ofDatum?_toDatum {field : Field} (h : field.Storable) :
    ofDatum? field.toDatum = some field := by
  obtain ⟨hLocation, hParent, hAnnotation⟩ := h
  simp [ofDatum?, toDatum, Datum.members?, Datum.named?, List.lookup_cons, Datum.string?,
    Datum.optional?_string, Location.ofDatum?_toDatum hLocation, TypeRef.ofDatum?_toDatum hParent,
    Annotation.ofDatum?_toDatum hAnnotation]

end Field

namespace FieldedType

def Storable (type : FieldedType) : Prop :=
  type.location.Storable ∧ type.fields.Storable Field.Storable ∧
    ∀ ref ∈ type.interfaces, ref.Storable

theorem ofDatum?_toDatum {type : FieldedType} (h : type.Storable) :
    ofDatum? type.toDatum = some type := by
  obtain ⟨hLocation, hFields, hInterfaces⟩ := h
  have hRead := Datum.list?_array fun ref hRef => TypeRef.ofDatum?_toDatum (hInterfaces ref hRef)
  simp [ofDatum?, toDatum, Datum.named?, List.lookup_cons, Datum.string?, Datum.optional?_string,
    Location.ofDatum?_toDatum hLocation, hFields.map?_ofMap Field.ofDatum?_toDatum, hRead]

end FieldedType

namespace UnionType

def Storable (type : UnionType) : Prop :=
  type.location.Storable ∧ type.members.Storable TypeRef.Storable

theorem ofDatum?_toDatum {type : UnionType} (h : type.Storable) :
    ofDatum? type.toDatum = some type := by
  obtain ⟨hLocation, hMembers⟩ := h
  simp [ofDatum?, toDatum, Datum.named?, List.lookup_cons, Datum.string?, Datum.optional?_string,
    Location.ofDatum?_toDatum hLocation, hMembers.map?_ofMap TypeRef.ofDatum?_toDatum]

end UnionType

namespace EnumType

def Storable (type : EnumType) : Prop := type.location.Storable

theorem ofDatum?_toDatum {type : EnumType} (h : type.Storable) :
    ofDatum? type.toDatum = some type := by
  have hValues : (Datum.array (type.values.map .string)).list? Datum.string? = some type.values :=
    Datum.list?_array fun _ _ => rfl
  simp [ofDatum?, toDatum, Datum.members?, Datum.named?, List.lookup_cons, Datum.string?,
    Datum.optional?_string, Location.ofDatum?_toDatum h, hValues]

end EnumType

namespace InputType

def Storable (type : InputType) : Prop :=
  type.location.Storable ∧ type.fields.Storable Annotation.Storable

theorem ofDatum?_toDatum {type : InputType} (h : type.Storable) :
    ofDatum? type.toDatum = some type := by
  obtain ⟨hLocation, hFields⟩ := h
  simp [ofDatum?, toDatum, Datum.named?, List.lookup_cons, Datum.string?, Datum.optional?_string,
    Location.ofDatum?_toDatum hLocation, hFields.map?_ofMap Annotation.ofDatum?_toDatum]

end InputType

namespace ScalarType

def Storable (type : ScalarType) : Prop := type.location.Storable

theorem ofDatum?_toDatum {type : ScalarType} (h : type.Storable) :
    ofDatum? type.toDatum = some type := by
  simp [ofDatum?, toDatum, Datum.members?, Datum.named?, List.lookup_cons, Datum.string?,
    Datum.optional?_string, Location.ofDatum?_toDatum h]

end ScalarType

namespace SchemaType

def Storable : SchemaType → Prop
  | .enum type => type.Storable
  | .input type => type.Storable
  | .interface type => type.Storable
  | .object type => type.Storable
  | .scalar type => type.Storable
  | .union type => type.Storable
  | _ => True

theorem ofDatum?_toDatum {type : SchemaType} (h : type.Storable) :
    ofDatum? type.toDatum = some type := by
  cases type with
  | enum content =>
      have hContent : EnumType.ofDatum? content.toDatum = some content :=
        EnumType.ofDatum?_toDatum h
      simp [ofDatum?, toDatum, kind, TypeKind.text, Datum.tagged, Datum.tagged?, hContent]
  | input content =>
      have hContent : InputType.ofDatum? content.toDatum = some content :=
        InputType.ofDatum?_toDatum h
      simp [ofDatum?, toDatum, kind, TypeKind.text, Datum.tagged, Datum.tagged?, hContent]
  | interface content =>
      have hContent : FieldedType.ofDatum? content.toDatum = some content :=
        FieldedType.ofDatum?_toDatum h
      simp [ofDatum?, toDatum, kind, TypeKind.text, Datum.tagged, Datum.tagged?, hContent]
  | object content =>
      have hContent : FieldedType.ofDatum? content.toDatum = some content :=
        FieldedType.ofDatum?_toDatum h
      simp [ofDatum?, toDatum, kind, TypeKind.text, Datum.tagged, Datum.tagged?, hContent]
  | scalar content =>
      have hContent : ScalarType.ofDatum? content.toDatum = some content :=
        ScalarType.ofDatum?_toDatum h
      simp [ofDatum?, toDatum, kind, TypeKind.text, Datum.tagged, Datum.tagged?, hContent]
  | union content =>
      have hContent : UnionType.ofDatum? content.toDatum = some content :=
        UnionType.ofDatum?_toDatum h
      simp [ofDatum?, toDatum, kind, TypeKind.text, Datum.tagged, Datum.tagged?, hContent]
  | _ => rfl

end SchemaType

namespace Schema

/-- The maps of the schema have distinct keys, and its lines and columns are numbers of 64 bits.
Nothing is asked of its references, nor of the names that its types stand under. -/
def Storable (schema : Schema) : Prop :=
  (∀ ref ∈ schema.mutation, ref.Storable) ∧ schema.query.Storable ∧
    (∀ ref ∈ schema.subscription, ref.Storable) ∧ schema.types.Storable SchemaType.Storable

end Schema

/-- A schema that is written to plain data and read back is the same schema. -/
theorem schema_read_back {schema : Schema} (h : schema.Storable) :
    Schema.ofDatum? schema.toDatum = some schema := by
  obtain ⟨hMutation, hQuery, hSubscription, hTypes⟩ := h
  simp [Schema.ofDatum?, Schema.toDatum, Datum.named?, List.lookup_cons,
    TypeRef.ofDatum?_toDatum hQuery, TypeRef.optional?_ofOption hMutation,
    TypeRef.optional?_ofOption hSubscription, hTypes.map?_ofMap SchemaType.ofDatum?_toDatum]

/-- Every kind of type and of location. The query type is nowhere defined, a type stands under a
name that is not its own, and lists are items of lists. -/
def shelfSchema : Schema :=
  let place : FilePosition := ⟨7, ⟨"shelf.graphql"⟩, FilePosition.coordinateBound⟩
  let text : TypeRef := ⟨"String", .schemaFile place⟩
  let rows : Annotation := .list (.list (.named false text) true .schema) false (.document place)
  let row : Field := ⟨.schema, some "", "row", ⟨"Shelf", .builtIn⟩, rows⟩
  { mutation := some ⟨"Nowhere", .document place⟩
    query := ⟨"Missing", .schema⟩
    subscription := none
    types := ⟨[("String", .string), ("Boolean", .bool), ("ID", .id), ("Int", .int),
      ("Float", .float), ("Shelf", .object ⟨.schema, none, ⟨[("row", row)]⟩, [text, text], "Box"⟩),
      ("Rack", .interface ⟨.builtIn, some "racks", ⟨[]⟩, [], "Rack"⟩),
      ("Kept", .union ⟨.schemaFile place, none, "Kept", ⟨[("Z", text), ("A", text)]⟩⟩),
      ("Size", .enum ⟨.schema, none, "Size", ["LARGE", "SMALL", "LARGE"]⟩),
      ("Pick", .input ⟨.schema, none, ⟨[("rows", rows)]⟩, "Pick"⟩),
      ("Date", .scalar ⟨.document place, none, "Date"⟩)]⟩ }

theorem shelf_read_back :
    shelfSchema.Storable ∧ Schema.ofDatum? shelfSchema.toDatum = some shelfSchema := by
  have hStorable : shelfSchema.Storable := by
    simp [-Prod.forall, shelfSchema, Schema.Storable, OrderedMap.Storable, OrderedMap.keys,
      SchemaType.Storable, FieldedType.Storable, UnionType.Storable, EnumType.Storable,
      InputType.Storable, ScalarType.Storable, Field.Storable, Annotation.Storable,
      TypeRef.Storable, Location.Storable, Location.filePosition?, FilePosition.Storable,
      FilePosition.coordinateBound]
  exact ⟨hStorable, schema_read_back hStorable⟩

end ResponseModels
