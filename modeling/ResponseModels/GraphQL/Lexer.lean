import ResponseModels.GraphQL.Token
import ResponseModels.GraphQL.Number
import ResponseModels.Text.BlockString
import ResponseModels.Text.QuotedString

/-! From text to tokens. Blanks, commas and comments between tokens only move the place, and
each of them has its own way of doing so: a tab counts for eight columns, a byte order mark
and a carriage return for none, and a comment swallows the character that ends it and starts
a new line. -/
namespace ResponseModels.GraphQL

mutual

/-- Skip what stands between tokens. -/
def skipIgnored (p : Position) : List Char → Position × List Char
  | [] => (p, [])
  | c :: rest =>
    if c = ' ' ∨ c = ',' then skipIgnored (p.right 1) rest
    else if c = '\t' then skipIgnored (p.right 8) rest
    else if c = '\n' then skipIgnored p.nextLine rest
    else if c = '\r' ∨ c = '\uFEFF' then skipIgnored p rest
    else if c = '#' then skipComment p rest
    else (p, c :: rest)

/-- Skip the rest of a comment, and then what stands between tokens. -/
def skipComment (p : Position) : List Char → Position × List Char
  | [] => (p, [])
  | c :: rest =>
    if c = '\n' ∨ c = '\r' then skipIgnored p.nextLine rest else skipComment p rest

end

mutual

theorem skipIgnored_length_le (p : Position) (text : List Char) :
    (skipIgnored p text).2.length ≤ text.length := by
  cases text with
  | nil => simp [skipIgnored]
  | cons c rest =>
    have blank := skipIgnored_length_le (p.right 1) rest
    have tab := skipIgnored_length_le (p.right 8) rest
    have line := skipIgnored_length_le p.nextLine rest
    have mark := skipIgnored_length_le p rest
    have comment := skipComment_length_le p rest
    rw [skipIgnored]
    split
    · simp only [List.length_cons]; omega
    · split
      · simp only [List.length_cons]; omega
      · split
        · simp only [List.length_cons]; omega
        · split
          · simp only [List.length_cons]; omega
          · split
            · simp only [List.length_cons]; omega
            · exact Nat.le_refl _

theorem skipComment_length_le (p : Position) (text : List Char) :
    (skipComment p text).2.length ≤ text.length := by
  cases text with
  | nil => simp [skipComment]
  | cons c rest =>
    have line := skipIgnored_length_le p.nextLine rest
    have comment := skipComment_length_le p rest
    rw [skipComment]
    split <;> simp only [List.length_cons] <;> omega

end

/-- How many characters stand before the quote that ends a string. A quote behind an odd
number of backslashes ends nothing, and a line break is refused. -/
def quotedLength? (escaped : Bool) : List Char → Option Nat
  | [] => none
  | c :: rest =>
    if c = '"' ∧ escaped = false then some 0
    else if c = '\n' then none
    else (quotedLength? (!escaped && c == '\\') rest).map (· + 1)

/-- How many characters stand before the triple quote that ends a block string. A triple
quote right behind a backslash is passed over as a whole. -/
def blockLength? : List Char → Option Nat
  | '\\' :: '"' :: '"' :: '"' :: rest => (blockLength? rest).map (· + 4)
  | '"' :: '"' :: '"' :: _ => some 0
  | _ :: rest => (blockLength? rest).map (· + 1)
  | [] => none

/-- The token that begins with `c`, and how many of the characters after `c` belong to it. -/
def readToken? (c : Char) (rest : List Char) : Option (Token × Nat) :=
  if isPunctuator c then some (.punctuator c, 0)
  else if c = '.' then
    match rest with
    | '.' :: '.' :: _ => some (.ellipsis, 2)
    | _ => none
  else if isNameStart c then
    let more := rest.takeWhile isNameRest
    some (.name (String.ofList (c :: more)), more.length)
  else if c = '-' ∨ Number.isDigit c then
    let more := rest.takeWhile (!Number.isEnd ·)
    if Number.isNumber (c :: more) then some (.number, more.length) else none
  else if c = '"' then
    match rest with
    | '"' :: '"' :: body => do
      let length ← blockLength? body
      return (.string (String.ofList (Text.BlockString.value (body.take length))), length + 5)
    | body => do
      let length ← quotedLength? false body
      let value ← Text.QuotedString.value? (body.take length)
      return (.string (String.ofList value), length + 1)
  else none

/-- How many brackets are open after a token. One that opens too many is refused, one that
closes what was never opened is left to the grammar. -/
def openAfter? (opened : Nat) : Token → Option Nat
  | .punctuator c =>
    if "([\x7b".contains c then
      if opened < maxOpenBrackets then some (opened + 1) else none
    else if ")]\x7d".contains c then some (opened - 1)
    else some opened
  | _ => some opened

/-- The tokens of `text`, which begins at `p` with `opened` brackets open. -/
def scan? (p : Position) (opened : Nat) (text : List Char) : Option (List Lexeme) :=
  match _skipped : skipIgnored p text with
  | (_, []) => some []
  | (start, c :: rest) => do
    let (token, more) ← readToken? c rest
    let opened ← openAfter? opened token
    let lexemes ← scan? (start.after (c :: rest.take more)) opened (rest.drop more)
    return ⟨token, start⟩ :: lexemes
termination_by text.length
decreasing_by
  have le := skipIgnored_length_le p text
  rw [_skipped] at le
  simp only [List.length_cons, List.length_drop] at le ⊢
  omega

/-- The tokens of a text, or nothing when some part of it is no token. -/
def tokens? (text : String) : Option (List Lexeme) := scan? .start 0 text.toList

end ResponseModels.GraphQL
