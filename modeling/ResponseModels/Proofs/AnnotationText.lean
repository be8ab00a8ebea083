import ResponseModels.Proofs.Nullability

/-! The text of a declared type is read back as the type. By the grammar of types no text has two
readings, however deep lists are nested and whatever follows the text; and what the grammar reads
is what is read from the tokens of the text. -/
namespace ResponseModels

open GraphQL

namespace GraphQL.TypeExpr

/-- A name without the characters that the notation of types uses itself. -/
def PlainName (name : String) : Prop := ∀ c ∈ name.toList, c ∉ ['[', ']', '!']

instance (name : String) : Decidable (PlainName name) :=
  List.decidableBAll _ _

mutual

/-- The texts of a type by the grammar `Type = (Name | '[' Type ']') '!'?`. -/
inductive Spells : String → TypeExpr → Prop
  | unmarked {text : String} {base : TypeExpr} : SpellsBase text base → Spells text base
  | marked {text : String} {base : TypeExpr} :
    SpellsBase text base → Spells (text ++ "!") (nonNull base)

/-- The texts of a type up to its mark. -/
inductive SpellsBase : String → TypeExpr → Prop
  | name {name : String} : PlainName name → SpellsBase name (named name)
  | list {text : String} {item : TypeExpr} :
    Spells text item → SpellsBase ("[" ++ text ++ "]") (list item)

end

/-- A type as it is written. -/
def text : TypeExpr → String
  | named name => name
  | list item => "[" ++ item.text ++ "]"
  | nonNull inner => inner.text ++ "!"

mutual

theorem Spells.eq_text : ∀ {text : String} {type : TypeExpr}, Spells text type →
    text = type.text ∧ type.MarkedOnce ∧ PlainName type.innermost
  | _, _, .unmarked hBase => hBase.eq_text.2
  | _, _, .marked hBase => by
    obtain ⟨hBare, rfl, hOnce, hName⟩ := hBase.eq_text
    exact ⟨rfl, markedOnce_nonNull.mpr ⟨hOnce, hBare⟩, hName⟩

theorem SpellsBase.eq_text : ∀ {text : String} {base : TypeExpr}, SpellsBase text base →
    base.outerMarks = 0 ∧ text = base.text ∧ base.MarkedOnce ∧ PlainName base.innermost
  | _, _, .name hName => ⟨rfl, rfl, by simp [MarkedOnce, marks, outerMarks, innerMarks], hName⟩
  | _, _, .list hItem => by
    obtain ⟨rfl, hOnce, hName⟩ := hItem.eq_text
    exact ⟨rfl, rfl, markedOnce_list.mpr hOnce, hName⟩

end

variable {type : TypeExpr} {text : String}

theorem spells_text (hMarks : type.MarkedOnce) (hName : PlainName type.innermost) :
    Spells type.text type ∧ (type.outerMarks = 0 → SpellsBase type.text type) := by
  induction type with
  | named name => exact ⟨.unmarked (.name hName), fun _ => .name hName⟩
  | list item ih =>
      have hBase : SpellsBase (list item).text (list item) :=
        .list (ih (markedOnce_list.mp hMarks) hName).1
      exact ⟨.unmarked hBase, fun _ => hBase⟩
  | nonNull base ih =>
      obtain ⟨hOnce, hBare⟩ := markedOnce_nonNull.mp hMarks
      exact ⟨.marked ((ih hOnce hName).2 hBare), nofun⟩

theorem spells_iff : Spells text type ↔
    text = type.text ∧ type.MarkedOnce ∧ PlainName type.innermost := by
  refine ⟨Spells.eq_text, ?_⟩
  rintro ⟨rfl, hMarks, hName⟩
  exact (spells_text hMarks hName).1

/-- The characters of a type are taken for its tokens, if they open no bracket too many and no name
goes on behind them. -/
theorem scans_text (hName : isName type.innermost = true) {opened : Nat}
    (hDepth : opened + type.listDepth ≤ maxOpenBrackets) {rest : List Char} {more : List Token}
    (hHead : ∀ c ∈ rest.head?, isNameRest c = false) (hRest : Scans opened rest more) :
    Scans opened (type.text.toList ++ rest) (type.tokens ++ more) := by
  induction type generalizing opened rest more with
  | named name => exact scans_name hName hHead hRest
  | list item ih =>
      rw [listDepth] at hDepth
      have hClose : Scans (opened + 1) (']' :: rest) (.punctuator ']' :: more) :=
        scans_punctuator (by decide) (by simp [isPunctuator]) (by simp [openAfter?]) hRest
      have hEnds : isNameRest ']' = false := by decide
      have hItem := ih hName (by omega) (by simpa using hEnds) hClose
      have hLimit : opened < maxOpenBrackets := by omega
      have hOpen : openAfter? opened (.punctuator '[') = some (opened + 1) := by
        simp [openAfter?, hLimit]
      simpa [text, tokens] using
        scans_punctuator (by decide) (by simp [isPunctuator]) hOpen hItem
  | nonNull inner ih =>
      have hMark : Scans opened ('!' :: rest) (.punctuator '!' :: more) :=
        scans_punctuator (by decide) (by simp [isPunctuator]) (by simp [openAfter?]) hRest
      have hEnds : isNameRest '!' = false := by decide
      simpa [text, tokens] using ih hName hDepth (by simpa using hEnds) hMark

/-- A type within the limits of the notation is read back from the tokens of its text. -/
theorem readAll?_text (hMarks : type.MarkedOnce) (hName : isName type.innermost = true)
    (hDepth : type.listDepth ≤ maxOpenBrackets) :
    (tokens? type.text).bind (Rule.readAll? rule) = some type := by
  have hScans : Scans 0 (type.text.toList ++ []) (type.tokens ++ []) :=
    scans_text hName (by omega) (fun _ hHead => by cases hHead) (scans_nil 0)
  rw [List.append_nil, List.append_nil] at hScans
  obtain ⟨lexemes, hLexemes, hTokens⟩ := hScans .start
  have hReads : Rule.Reads rule type (lexemes.map Lexeme.token) [] := by
    rw [hTokens]
    exact reads_ruleWithin hMarks (Nat.lt_succ_of_le hDepth) nofun
  rw [tokens?, hLexemes, Option.bind_some, hReads.readAll?]

end GraphQL.TypeExpr

namespace Annotation

/-- The annotation at another place. -/
def relocated (location : Location) : Annotation → Annotation
  | list item nullable _ => list (item.relocated location) nullable location
  | named nullable type => named nullable ⟨type.name, location⟩

/-- The written type of an annotation. -/
def typeExpr : Annotation → TypeExpr
  | list item nullable _ => if nullable then .list item.typeExpr else .nonNull (.list item.typeExpr)
  | named nullable type => if nullable then .named type.name else .nonNull (.named type.name)

theorem relocated_ofTypeExpr (location place : Location) (type : TypeExpr) :
    (ofTypeExpr location type).relocated place = ofTypeExpr place type := by
  fun_induction ofTypeExpr location type with
  | case1 name => rfl
  | case2 item ih => rw [relocated, ih, ofTypeExpr]
  | case3 name => rfl
  | case4 item ih => rw [relocated, ih, ofTypeExpr]
  | case5 inner ih => rw [ih, ofTypeExpr]

theorem typeExpr_ofTypeExpr (location : Location) {type : TypeExpr} (h : type.MarkedOnce) :
    (ofTypeExpr location type).typeExpr = type := by
  fun_induction ofTypeExpr location type with
  | case1 name => rfl
  | case2 item ih => rw [typeExpr, ih (TypeExpr.markedOnce_list.mp h), if_pos rfl]
  | case3 name => rfl
  | case4 item ih =>
      have hItem := TypeExpr.markedOnce_list.mp (TypeExpr.markedOnce_nonNull.mp h).1
      rw [typeExpr, ih hItem, if_neg Bool.false_ne_true]
  | case5 inner =>
      cases (TypeExpr.markedOnce_nonNull.mp h).2

theorem text_ofTypeExpr (location : Location) {type : TypeExpr} (h : type.MarkedOnce) :
    (ofTypeExpr location type).text = type.text := by
  fun_induction ofTypeExpr location type with
  | case1 name => simp [text, TypeExpr.text]
  | case2 item ih => simp [text, TypeExpr.text, ih (TypeExpr.markedOnce_list.mp h)]
  | case3 name => simp [text, TypeExpr.text]
  | case4 item ih =>
      have hItem := TypeExpr.markedOnce_list.mp (TypeExpr.markedOnce_nonNull.mp h).1
      simp [text, TypeExpr.text, ih hItem]
  | case5 inner => cases (TypeExpr.markedOnce_nonNull.mp h).2

/-- A name and lists within the limits of the notation are read back from the tokens of the text. -/
theorem readAll?_text_ofTypeExpr (location : Location) {type : TypeExpr} (hMarks : type.MarkedOnce)
    (hName : isName type.innermost = true) (hDepth : type.listDepth ≤ maxOpenBrackets) :
    (tokens? (ofTypeExpr location type).text).bind (Rule.readAll? TypeExpr.rule) = some type := by
  rw [text_ofTypeExpr location hMarks]
  exact TypeExpr.readAll?_text hMarks hName hDepth

/-- The mark of a level that must not be null. -/
def mark (nullable : Bool) : List Char := if nullable then [] else ['!']

theorem toList_text_list (item : Annotation) (nullable : Bool) (location : Location) :
    (list item nullable location).text.toList =
      '[' :: (item.text.toList ++ ']' :: mark nullable) := by
  cases nullable <;> simp [text, mark]

theorem toList_text_named (nullable : Bool) (type : TypeRef) :
    (named nullable type).text.toList = type.name.toList ++ mark nullable := by
  cases nullable <;> simp [text, mark]

/-- What may follow a type: nothing, or the end of a list. -/
def Closing (rest : List Char) : Prop := ∀ c ∈ rest.head?, c = ']'

variable {nullable nullable' : Bool} {rest rest' : List Char} {type type' : TypeRef}

theorem closing_bracket (chars : List Char) : Closing (']' :: chars) :=
  fun _ hHead => (Option.some.inj hHead).symm

theorem not_closing_mark (chars : List Char) : ¬ Closing ('!' :: chars) := by
  intro h
  exact absurd (h '!' rfl) (by decide)

theorem Closing.head_mark_append (h : Closing rest) {c : Char}
    (hHead : c ∈ (mark nullable ++ rest).head?) : c = if nullable then ']' else '!' := by
  cases nullable with
  | false => exact (Option.some.inj hHead).symm
  | true => exact h c hHead

theorem mark_append_inj (hRest : Closing rest) (hRest' : Closing rest')
    (h : mark nullable ++ rest = mark nullable' ++ rest') :
    nullable = nullable' ∧ rest = rest' := by
  cases nullable with
  | false =>
      cases nullable' with
      | false => exact ⟨rfl, List.tail_eq_of_cons_eq h⟩
      | true =>
          obtain rfl : '!' :: rest = rest' := h
          exact absurd hRest' (not_closing_mark rest)
  | true =>
      cases nullable' with
      | false =>
          obtain rfl : rest = '!' :: rest' := h
          exact absurd hRest (not_closing_mark rest')
      | true => exact ⟨rfl, h⟩

/-- A character that may stand in a plain name. -/
def isPlain (c : Char) : Bool := c ∉ ['[', ']', '!']

theorem Closing.not_plain (h : Closing rest) (nullable : Bool) :
    ∀ c ∈ (mark nullable ++ rest).head?, isPlain c = false := by
  intro c hHead
  rw [h.head_mark_append hHead]
  cases nullable <;> decide

/-- The name of a type ends where its mark or the rest begins. -/
theorem takeWhile_named (hName : TypeExpr.PlainName type.name) (hRest : Closing rest) :
    ((named nullable type).text.toList ++ rest).takeWhile isPlain = type.name.toList := by
  rw [toList_text_named, List.append_assoc]
  exact takeWhile_append_of_head (fun c hMem => by simpa [isPlain] using hName c hMem)
    (hRest.not_plain nullable)

/-- A name begins with no bracket. -/
theorem named_ne_cons_bracket (hName : TypeExpr.PlainName type.name) (hRest : Closing rest)
    (chars : List Char) : (named nullable type).text.toList ++ rest ≠ '[' :: chars := by
  intro h
  have hNone : type.name.toList = [] := by
    rw [← takeWhile_named hName hRest, h]
    rfl
  rw [toList_text_named, hNone, List.nil_append] at h
  have hHead : '[' = if nullable then ']' else '!' := hRest.head_mark_append (by rw [h]; rfl)
  cases nullable <;> exact absurd hHead (by decide)

/-- No text has two readings, whatever follows it. The induction is on the first annotation; the
second one has to begin like it. -/
theorem relocated_eq_of_text_append {first second : Annotation}
    (hFirst : TypeExpr.PlainName first.innermost.name)
    (hSecond : TypeExpr.PlainName second.innermost.name) {rest rest' : List Char}
    (hRest : Closing rest) (hRest' : Closing rest')
    (h : first.text.toList ++ rest = second.text.toList ++ rest') (place : Location) :
    first.relocated place = second.relocated place ∧ rest = rest' := by
  induction first generalizing second rest rest' with
  | list item nullable location ih =>
      rw [toList_text_list, List.cons_append] at h
      cases second with
      | named nullable' type' =>
          exact absurd h.symm (named_ne_cons_bracket hSecond hRest' _)
      | list item' nullable' location' =>
          rw [toList_text_list, List.cons_append, List.append_assoc, List.append_assoc] at h
          obtain ⟨hItem, hAfter⟩ := @ih item' hFirst hSecond _ _ (closing_bracket _)
            (closing_bracket _) (List.tail_eq_of_cons_eq h)
          obtain ⟨hMark, hSame⟩ := mark_append_inj hRest hRest' (List.tail_eq_of_cons_eq hAfter)
          rw [relocated, relocated, hItem, hMark]
          exact ⟨rfl, hSame⟩
  | named nullable type =>
      cases second with
      | list item' nullable' location' =>
          rw [toList_text_list, List.cons_append] at h
          exact absurd h (named_ne_cons_bracket hFirst hRest _)
      | named nullable' type' =>
          have hChars : type.name.toList = type'.name.toList :=
            calc type.name.toList
              _ = ((named nullable type).text.toList ++ rest).takeWhile isPlain :=
                (takeWhile_named hFirst hRest).symm
              _ = ((named nullable' type').text.toList ++ rest').takeWhile isPlain := by rw [h]
              _ = type'.name.toList := takeWhile_named hSecond hRest'
          have hName : type.name = type'.name := String.toList_inj.mp hChars
          rw [toList_text_named, toList_text_named, hName, List.append_assoc, List.append_assoc,
            List.append_cancel_left_eq] at h
          obtain ⟨hMark, hSame⟩ := mark_append_inj hRest hRest' h
          rw [relocated, relocated, hName, hMark]
          exact ⟨rfl, hSame⟩

theorem relocated_eq_of_text {first second : Annotation}
    (hFirst : TypeExpr.PlainName first.innermost.name)
    (hSecond : TypeExpr.PlainName second.innermost.name) (h : first.text = second.text)
    (place : Location) : first.relocated place = second.relocated place := by
  have hNothing : Closing [] := fun _ hHead => by cases hHead
  exact (relocated_eq_of_text_append hFirst hSecond hNothing hNothing (by rw [h]) place).1

end Annotation

/-- Types that are written alike are the same. -/
theorem GraphQL.TypeExpr.eq_of_text {first second : TypeExpr} (hFirst : first.MarkedOnce)
    (hSecond : second.MarkedOnce) (hName : PlainName first.innermost)
    (hName' : PlainName second.innermost) (h : first.text = second.text) : first = second := by
  -- Both are read off their annotations at one place, and these have the texts of the types.
  have hNamed := Annotation.innermost_ofTypeExpr .builtIn
  have hText := Annotation.text_ofTypeExpr .builtIn hFirst
  have hText' := Annotation.text_ofTypeExpr .builtIn hSecond
  have hAnnotations : Annotation.ofTypeExpr .builtIn first =
      Annotation.ofTypeExpr .builtIn second := by
    rw [← Annotation.relocated_ofTypeExpr .builtIn .builtIn first,
      ← Annotation.relocated_ofTypeExpr .builtIn .builtIn second]
    apply Annotation.relocated_eq_of_text
    · rwa [hNamed]
    · rwa [hNamed]
    · rw [hText, hText', h]
  rw [← Annotation.typeExpr_ofTypeExpr .builtIn hFirst, hAnnotations,
    Annotation.typeExpr_ofTypeExpr .builtIn hSecond]

/-- The text of an annotation has one reading by the grammar of types, the type that was annotated;
another annotation with this text differs at most in its places. -/
theorem annotation_text_read_back (location : Location) {type : TypeExpr}
    (hMarks : type.MarkedOnce) (hName : TypeExpr.PlainName type.innermost) :
    let built := Annotation.ofTypeExpr location type
    (∀ read, TypeExpr.Spells built.text read ↔ read = type) ∧
      (∀ other : Annotation, TypeExpr.PlainName other.innermost.name →
        other.text = built.text → ∀ place, other.relocated place = built.relocated place) := by
  intro built
  have hText : built.text = type.text := Annotation.text_ofTypeExpr location hMarks
  have hPlain : TypeExpr.PlainName built.innermost.name := by
    have hNamed := Annotation.innermost_ofTypeExpr location type
    rw [hNamed]
    exact hName
  rw [hText]
  refine ⟨fun read => ⟨fun hSpells => ?_, ?_⟩, ?_⟩
  · obtain ⟨hRead, hOnce, hReadName⟩ := TypeExpr.spells_iff.mp hSpells
    exact TypeExpr.eq_of_text hOnce hMarks hReadName hName hRead.symm
  · rintro rfl
    exact TypeExpr.spells_iff.mpr ⟨rfl, hMarks, hName⟩
  · intro other hOther hSame place
    exact Annotation.relocated_eq_of_text hOther hPlain (hSame.trans hText.symm) place

/-- Lists of lists with a mark inside and one outside. -/
def nestedLists : TypeExpr := .nonNull (.list (.list (.nonNull (.named "Int"))))

theorem nested_lists_read_back :
    Annotation.text (.ofTypeExpr .builtIn nestedLists) = "[[Int!]]!" ∧
      ∀ read, TypeExpr.Spells "[[Int!]]!" read ↔ read = nestedLists := by
  have hText : Annotation.text (.ofTypeExpr .builtIn nestedLists) = "[[Int!]]!" := by decide
  have hMarks : nestedLists.MarkedOnce := by decide
  have hName : TypeExpr.PlainName nestedLists.innermost := by decide
  obtain ⟨hSpells, _⟩ := annotation_text_read_back .builtIn hMarks hName
  rw [hText] at hSpells
  exact ⟨hText, hSpells⟩

end ResponseModels
