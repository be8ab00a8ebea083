import ResponseModels.GraphQL.Lexer
import ResponseModels.GraphQL.TypeExpr

/-! Written types and their tokens. What is read from tokens wraps no non-null type into another
one, and the tokens of such a type are read back as the type. Characters are taken for tokens one
after the other, and where the tokens begin makes no difference to what is read. -/
namespace ResponseModels.GraphQL

namespace Rule

variable {α β : Type}

/-- The rule reads the value from the tokens, wherever they stand, and leaves what follows. -/
def Reads (rule : Rule α) (value : α) (tokens more : List Token) : Prop :=
  ∀ lexemes : List Lexeme, lexemes.map Lexeme.token = tokens ++ more →
    ∃ rest, rule.run lexemes = some (value, rest) ∧ rest.map Lexeme.token = more

theorem reads_pure (value : α) (more : List Token) : Reads (pure value) value [] more :=
  fun lexemes hTokens => ⟨lexemes, rfl, hTokens⟩

theorem Reads.bind {rule : Rule α} {next : α → Rule β} {first : α} {value : β}
    {tokens tokens' more : List Token} (h : Reads rule first tokens (tokens' ++ more))
    (hNext : Reads (next first) value tokens' more) :
    Reads (rule >>= next) value (tokens ++ tokens') more := by
  intro lexemes hTokens
  rw [List.append_assoc] at hTokens
  obtain ⟨middle, hFirst, hMiddle⟩ := h lexemes hTokens
  obtain ⟨rest, hValue, hRest⟩ := hNext middle hMiddle
  refine ⟨rest, ?_, hRest⟩
  rw [StateT.run_bind, hFirst]
  exact hValue

theorem Reads.last {rule : Rule α} {next : α → Rule β} {first : α} {value : β}
    {tokens more : List Token} (h : Reads rule first tokens more)
    (hNext : Reads (next first) value [] more) : Reads (rule >>= next) value tokens more := by
  rw [← List.append_nil tokens]
  exact Reads.bind h hNext

theorem reads_next (token : Token) (more : List Token) : Reads next token [token] more := by
  intro lexemes hTokens
  obtain ⟨lexeme, rest, rfl, rfl, hRest⟩ := List.map_eq_cons_iff.mp hTokens
  exact ⟨rest, rfl, hRest⟩

theorem reads_punctuator (c : Char) (more : List Token) :
    Reads (punctuator c) () [.punctuator c] more := by
  intro lexemes hTokens
  obtain ⟨lexeme, rest, rfl, hToken, hRest⟩ := List.map_eq_cons_iff.mp hTokens
  exact ⟨rest, by simp [punctuator, expect, next, hToken], hRest⟩

theorem reads_accept (token : Token) (more : List Token) :
    Reads (accept token) true [token] more := by
  intro lexemes hTokens
  obtain ⟨lexeme, rest, rfl, hToken, hRest⟩ := List.map_eq_cons_iff.mp hTokens
  exact ⟨rest, by simp [accept, at?, peek, next, hToken], hRest⟩

theorem reads_accept_of_ne {token : Token} {more : List Token} (h : more.head? ≠ some token) :
    Reads (accept token) false [] more := by
  intro lexemes hTokens
  rw [List.nil_append] at hTokens
  refine ⟨lexemes, ?_, hTokens⟩
  cases lexemes with
  | nil => simp [accept, at?, peek]
  | cons lexeme rest =>
      have hOther : lexeme.token ≠ token := by
        rintro rfl
        exact h (by rw [← hTokens]; rfl)
      simp [accept, at?, peek, hOther]

theorem Reads.readAll? {rule : Rule α} {value : α} {lexemes : List Lexeme}
    (h : Reads rule value (lexemes.map Lexeme.token) []) : readAll? rule lexemes = some value := by
  obtain ⟨rest, hRun, hRest⟩ := h lexemes (List.append_nil _).symm
  rw [List.map_eq_nil_iff] at hRest
  subst hRest
  rw [Rule.readAll?, hRun]

end Rule

namespace TypeExpr

/-- How many non-null wrappers stand directly around the outermost level. -/
def outerMarks : TypeExpr → Nat
  | named _ => 0
  | list _ => 0
  | nonNull inner => inner.outerMarks + 1

/-- How many non-null wrappers stand directly around each level but the outermost. -/
def innerMarks : TypeExpr → List Nat
  | named _ => []
  | list item => item.outerMarks :: item.innerMarks
  | nonNull inner => inner.innerMarks

/-- How many non-null wrappers stand directly around each level, from the outermost list down to
the name. -/
def marks (type : TypeExpr) : List Nat := type.outerMarks :: type.innerMarks

/-- No non-null wrapper stands directly around another one. -/
def MarkedOnce (type : TypeExpr) : Prop := ∀ count ∈ type.marks, count ≤ 1

instance (type : TypeExpr) : Decidable type.MarkedOnce :=
  inferInstanceAs (Decidable (∀ count ∈ type.marks, count ≤ 1))

/-- The name under all wrappers. -/
def innermost : TypeExpr → String
  | named name => name
  | list item => item.innermost
  | nonNull inner => inner.innermost

/-- How many lists stand around the name. -/
def listDepth : TypeExpr → Nat
  | named _ => 0
  | list item => item.listDepth + 1
  | nonNull inner => inner.listDepth

theorem markedOnce_list {item : TypeExpr} : (list item).MarkedOnce ↔ item.MarkedOnce := by
  simp [MarkedOnce, marks, outerMarks, innerMarks]

theorem markedOnce_nonNull {base : TypeExpr} :
    (nonNull base).MarkedOnce ↔ base.MarkedOnce ∧ base.outerMarks = 0 := by
  simp only [MarkedOnce, marks, outerMarks, innerMarks, List.forall_mem_cons]
  constructor
  · rintro ⟨hOuter, hInner⟩
    exact ⟨⟨by omega, hInner⟩, by omega⟩
  · rintro ⟨⟨_, hInner⟩, hBare⟩
    exact ⟨by omega, hInner⟩

/-- Read a type up to its mark, with fewer than `budget` lists inside each other. -/
def baseWithin (budget : Nat) : Rule TypeExpr := do
  match (← Rule.next) with
  | .name text => return named text
  | .punctuator '[' =>
    let item ← ruleWithin budget
    Rule.punctuator ']'
    return list item
  | _ => failure

theorem ruleWithin_succ (budget : Nat) :
    ruleWithin (budget + 1) = (do
      let base ← baseWithin budget
      if (← Rule.accept (.punctuator '!')) then return nonNull base else return base) :=
  rfl

/-- What is read before a mark is a name, or a list of a type that was read. -/
theorem baseWithin_eq_some {budget : Nat} {lexemes rest : List Lexeme} {base : TypeExpr}
    (h : (baseWithin budget).run lexemes = some (base, rest)) :
    (∃ name, base = named name) ∨
      ∃ item before after, base = list item ∧
        (ruleWithin budget).run before = some (item, after) := by
  cases lexemes with
  | nil => cases h
  | cons lexeme lexemes =>
      change (match lexeme.token with
        | .name text => return named text
        | .punctuator '[' => do
          let item ← ruleWithin budget
          Rule.punctuator ']'
          return list item
        | _ => failure : Rule TypeExpr).run lexemes = _ at h
      split at h
      · cases h
        exact .inl ⟨_, rfl⟩
      · rw [StateT.run_bind, Option.bind_eq_bind, Option.bind_eq_some_iff] at h
        obtain ⟨⟨item, after⟩, hItem, h⟩ := h
        rw [StateT.run_bind, Option.bind_eq_bind, Option.bind_eq_some_iff] at h
        obtain ⟨_, _, h⟩ := h
        cases h
        exact .inr ⟨item, _, after, rfl, hItem⟩
      · cases h

/-- Text never wraps a non-null type into another one. -/
theorem markedOnce_of_ruleWithin {budget : Nat} {lexemes rest : List Lexeme} {type : TypeExpr}
    (h : (ruleWithin budget).run lexemes = some (type, rest)) : type.MarkedOnce := by
  induction budget generalizing lexemes rest type with
  | zero => cases h
  | succ budget ih =>
      rw [ruleWithin_succ, StateT.run_bind, Option.bind_eq_bind, Option.bind_eq_some_iff] at h
      obtain ⟨⟨base, middle⟩, hBase, h⟩ := h
      have hOnce : base.MarkedOnce ∧ base.outerMarks = 0 := by
        rcases baseWithin_eq_some hBase with ⟨name, rfl⟩ | ⟨item, before, after, rfl, hItem⟩
        · exact ⟨by simp [MarkedOnce, marks, outerMarks, innerMarks], rfl⟩
        · exact ⟨markedOnce_list.mpr (ih hItem), rfl⟩
      rw [StateT.run_bind, Option.bind_eq_bind, Option.bind_eq_some_iff] at h
      obtain ⟨⟨marked, _⟩, _, h⟩ := h
      cases marked with
      | true =>
          cases h
          exact markedOnce_nonNull.mpr hOnce
      | false =>
          cases h
          exact hOnce.1

/-- The tokens of a type in text. -/
def tokens : TypeExpr → List Token
  | named name => [.name name]
  | list item => [.punctuator '['] ++ (item.tokens ++ [.punctuator ']'])
  | nonNull inner => inner.tokens ++ [.punctuator '!']

variable {budget : Nat} {base type : TypeExpr} {tokens more : List Token}

theorem reads_unmarked (h : Rule.Reads (baseWithin budget) base tokens more)
    (hMore : more.head? ≠ some (.punctuator '!')) :
    Rule.Reads (ruleWithin (budget + 1)) base tokens more := by
  rw [ruleWithin_succ]
  refine h.last (Rule.Reads.last (Rule.reads_accept_of_ne hMore) ?_)
  exact Rule.reads_pure base more

theorem reads_marked (h : Rule.Reads (baseWithin budget) base tokens (.punctuator '!' :: more)) :
    Rule.Reads (ruleWithin (budget + 1)) (nonNull base) (tokens ++ [.punctuator '!']) more := by
  rw [ruleWithin_succ]
  refine Rule.Reads.bind h (Rule.Reads.last (Rule.reads_accept (.punctuator '!') more) ?_)
  exact Rule.reads_pure (nonNull base) more

/-- A name is read before a mark, and a list whose items are read within the budget. -/
theorem reads_baseWithin (hBare : base.outerMarks = 0)
    (hItem : ∀ item, base = list item →
      Rule.Reads (ruleWithin budget) item item.tokens (.punctuator ']' :: more)) :
    Rule.Reads (baseWithin budget) base base.tokens more := by
  cases base with
  | named name =>
      refine Rule.Reads.last (Rule.reads_next (.name name) more) ?_
      exact Rule.reads_pure (named name) more
  | list item =>
      refine Rule.Reads.bind (Rule.reads_next (.punctuator '[') _) ?_
      refine Rule.Reads.bind (hItem item rfl) ?_
      refine Rule.Reads.last (Rule.reads_punctuator ']' more) ?_
      exact Rule.reads_pure (list item) more
  | nonNull inner => cases hBare

/-- A type that is marked at most once per level is read back, if no mark follows. The induction
is on the budget, as the items of a list have one list less around them. -/
theorem reads_ruleWithin (hMarks : type.MarkedOnce) (hDepth : type.listDepth < budget)
    (hMore : more.head? ≠ some (.punctuator '!')) :
    Rule.Reads (ruleWithin budget) type type.tokens more := by
  induction budget generalizing type more with
  | zero => exact absurd hDepth (Nat.not_lt_zero _)
  | succ budget ih =>
      have hBase : ∀ {base more}, base.MarkedOnce → base.outerMarks = 0 →
          base.listDepth < budget + 1 →
          Rule.Reads (baseWithin budget) base base.tokens more := by
        intro base more hOnce hBare hLists
        refine reads_baseWithin hBare fun item hItem => ?_
        subst hItem
        exact ih (markedOnce_list.mp hOnce) (Nat.lt_of_succ_lt_succ hLists) (by simp)
      cases type with
      | named name => exact reads_unmarked (hBase hMarks rfl hDepth) hMore
      | list item => exact reads_unmarked (hBase hMarks rfl hDepth) hMore
      | nonNull base =>
          obtain ⟨hOnce, hBare⟩ := markedOnce_nonNull.mp hMarks
          exact reads_marked (hBase hOnce hBare hDepth)

end TypeExpr

/-- The text is one name by the rules of the notation. -/
def isName (text : String) : Bool :=
  match text.toList with
  | c :: rest => isNameStart c && rest.all isNameRest
  | [] => false

/-- With `opened` brackets open, the characters are taken for the tokens, wherever they stand. -/
def Scans (opened : Nat) (text : List Char) (tokens : List Token) : Prop :=
  ∀ p, ∃ lexemes, scan? p opened text = some lexemes ∧ lexemes.map Lexeme.token = tokens

/-- Characters that are skipped between tokens, or that begin something that is. -/
def ignoredStarts : List Char := [' ', ',', '\t', '\n', '\r', '\uFEFF', '#']

theorem skipIgnored_of_not_mem {c : Char} (h : c ∉ ignoredStarts) (p : Position)
    (rest : List Char) : skipIgnored p (c :: rest) = (p, c :: rest) := by
  simp only [ignoredStarts, List.mem_cons, List.not_mem_nil, or_false, not_or] at h
  simp [skipIgnored, h]

variable {opened opened' : Nat} {c : Char} {rest : List Char} {tokens : List Token}

theorem scans_nil (opened : Nat) : Scans opened [] [] := by
  intro p
  refine ⟨[], ?_, rfl⟩
  rw [scan?]
  simp [skipIgnored]

/-- One token is taken, and the characters after it are taken for the others. -/
theorem Scans.cons {token : Token} {more : Nat} (hStart : c ∉ ignoredStarts)
    (hToken : readToken? c rest = some (token, more))
    (hOpened : openAfter? opened token = some opened')
    (h : Scans opened' (rest.drop more) tokens) : Scans opened (c :: rest) (token :: tokens) := by
  intro p
  obtain ⟨lexemes, hLexemes, hTokens⟩ := h (p.after (c :: rest.take more))
  refine ⟨⟨token, p⟩ :: lexemes, ?_, by rw [List.map_cons, hTokens]⟩
  rw [scan?]
  split
  · rename_i hNil
    rw [skipIgnored_of_not_mem hStart] at hNil
    cases hNil
  · rename_i hCons
    rw [skipIgnored_of_not_mem hStart] at hCons
    cases hCons
    simp [hToken, hOpened, hLexemes]

theorem scans_punctuator (hStart : c ∉ ignoredStarts) (hPunctuator : isPunctuator c = true)
    (hOpened : openAfter? opened (.punctuator c) = some opened')
    (h : Scans opened' rest tokens) : Scans opened (c :: rest) (.punctuator c :: tokens) := by
  have hToken : readToken? c rest = some (.punctuator c, 0) := by
    simp [readToken?, hPunctuator]
  exact .cons hStart hToken hOpened h

theorem not_mem_of_isNameStart {others : List Char} (hOthers : others.any isNameStart = false)
    (h : isNameStart c = true) : c ∉ others := by
  intro hMem
  exact List.any_eq_false.mp hOthers c hMem h

/-- What begins a name begins nothing else. -/
theorem apart_of_isNameStart (h : isNameStart c = true) :
    c ∉ ignoredStarts ∧ isPunctuator c = false ∧ c ≠ '.' := by
  refine ⟨not_mem_of_isNameStart (by decide) h, ?_, ?_⟩
  · rw [isPunctuator, String.contains_char_eq, decide_eq_false_iff_not]
    exact not_mem_of_isNameStart (by decide) h
  · rintro rfl
    cases h

/-- Exactly the characters in front are taken, if they are of the kind and none follows. -/
theorem takeWhile_append_of_head {p : Char → Bool} {front rest : List Char}
    (hFront : ∀ c ∈ front, p c = true) (hRest : ∀ c ∈ rest.head?, p c = false) :
    (front ++ rest).takeWhile p = front := by
  have hEnd : rest.takeWhile p = [] := by
    cases rest with
    | nil => rfl
    | cons next _ => simp [hRest next rfl]
  rw [List.takeWhile_append_of_pos hFront, hEnd, List.append_nil]

/-- A name ends where no character of a name follows. -/
theorem scans_name {name : String} (hName : isName name = true)
    (hRest : ∀ c ∈ rest.head?, isNameRest c = false) (h : Scans opened rest tokens) :
    Scans opened (name.toList ++ rest) (.name name :: tokens) := by
  unfold isName at hName
  split at hName
  · rename_i c more hChars
    rw [Bool.and_eq_true] at hName
    obtain ⟨hStart, hMore⟩ := hName
    obtain ⟨hIgnored, hPunctuator, hDot⟩ := apart_of_isNameStart hStart
    have hTake : (more ++ rest).takeWhile isNameRest = more :=
      takeWhile_append_of_head (List.all_eq_true.mp hMore) hRest
    have hToken : readToken? c (more ++ rest) = some (.name name, more.length) := by
      simp [readToken?, hPunctuator, hDot, hStart, hTake, ← hChars]
    rw [hChars, List.cons_append]
    exact .cons hIgnored hToken rfl (by rwa [List.drop_left])
  · cases hName

end ResponseModels.GraphQL
