/-! The value of a string between single quotes. -/
namespace ResponseModels.Text.QuotedString

/-- The value of a hexadecimal digit. -/
def hexDigit? (c : Char) : Option Nat :=
  if '0' ≤ c ∧ c ≤ '9' then some (c.toNat - '0'.toNat)
  else if 'a' ≤ c ∧ c ≤ 'f' then some (c.toNat - 'a'.toNat + 10)
  else if 'A' ≤ c ∧ c ≤ 'F' then some (c.toNat - 'A'.toNat + 10)
  else none

/-- The value of the first of several hexadecimal digits. A plus sign may take its place, and
adds nothing. -/
def leadingHexDigit? (c : Char) : Option Nat := if c = '+' then some 0 else hexDigit? c

/-- The character with the code point that four hexadecimal digits give. Surrogates are no
characters. -/
def codePoint? (a b c d : Char) : Option Char := do
  let high := (← leadingHexDigit? a) * 16 + (← hexDigit? b)
  let low := (← hexDigit? c) * 16 + (← hexDigit? d)
  let code := high * 256 + low
  if code.isValidChar then some (Char.ofNat code) else none

/-- What a backslash and one character stand for. The backspace escape gives the character
with the code point 16. -/
def escape? : Char → Option Char
  | '"' => some '"'
  | '\\' => some '\\'
  | '/' => some '/'
  | 'b' => some '\x10'
  | 'f' => some '\x0c'
  | 'n' => some '\n'
  | 'r' => some '\r'
  | 't' => some '\t'
  | _ => none

/-- Resolve the escapes of the text between the quotes. -/
def value? : List Char → Option (List Char)
  | [] => some []
  | '\\' :: 'u' :: a :: b :: c :: d :: rest => do
    return (← codePoint? a b c d) :: (← value? rest)
  | '\\' :: c :: rest => do return (← escape? c) :: (← value? rest)
  | c :: rest => if c = '\\' then none else (value? rest).map (c :: ·)

end ResponseModels.Text.QuotedString
