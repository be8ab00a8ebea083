import ResponseModels.Text.Basic

/-! The value of a string between triple quotes: the lines lose the indentation that they
share, and blank lines at both ends go away. Indentation is measured in bytes of UTF-8. -/
namespace ResponseModels.Text.BlockString

/-- Drop a carriage return that stands at the end of a line. -/
def withoutReturn : List Char → List Char
  | [] => []
  | ['\r'] => []
  | c :: rest => c :: withoutReturn rest

/-- The lines of a text. A carriage return before a line break belongs to the break; one at
the very end of the text does not. -/
def lines (text : List Char) : List (List Char) :=
  let pieces := segments '\n' text
  pieces.dropLast.map withoutReturn ++ pieces.getLast?.toList

/-- The length of a text in bytes of UTF-8. -/
def byteLength : List Char → Nat
  | [] => 0
  | c :: rest => c.utf8Size + byteLength rest

/-- Bytes of white space in front of a line's first other character. -/
def indent (line : List Char) : Nat := byteLength (line.takeWhile isBlank)

/-- The least indentation of the lines that are not blank, the string's first line not
counted. -/
def commonIndent (rest : List (List Char)) : Nat :=
  (((rest.filter (!isBlankLine ·)).map indent).min?).getD 0

/-- Drop characters as long as they fit into the given number of bytes. -/
def dropBytes : Nat → List Char → List Char
  | _, [] => []
  | bytes, c :: rest =>
    if c.utf8Size ≤ bytes then dropBytes (bytes - c.utf8Size) rest else c :: rest

/-- A line without the common indentation. A line that is shorter than it stays whole. -/
def unindent (bytes : Nat) (line : List Char) : List Char :=
  if byteLength line < bytes then line else dropBytes bytes line

/-- Put a triple quote for every triple quote behind a backslash. -/
def unescape : List Char → List Char
  | '\\' :: '"' :: '"' :: '"' :: rest => '"' :: '"' :: '"' :: unescape rest
  | c :: rest => c :: unescape rest
  | [] => []

/-- The lines without the blank ones at either end. -/
def trimBlankLines (all : List (List Char)) : List (List Char) :=
  ((all.dropWhile isBlankLine).reverse.dropWhile isBlankLine).reverse

/-- The value of the text between the triple quotes. -/
def value (text : List Char) : List Char :=
  match lines text with
  | [] => []
  | first :: rest =>
    let bytes := commonIndent rest
    let kept := trimBlankLines (first :: rest.map (unindent bytes))
    ['\n'].intercalate (kept.map unescape)

end ResponseModels.Text.BlockString
