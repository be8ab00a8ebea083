import ResponseModels.Text.Uppercase

/-! Texts cut into pieces and put together again. Model names are made from names of fields and
operations: `hero_friends` and `heroFriends` both become `HeroFriends`. -/
namespace ResponseModels.Text

/-- The pieces between the occurrences of `separator`, empty ones included, so
there is one piece more than there are separators. -/
def segments (separator : Char) : List Char → List (List Char)
  | [] => [[]]
  | c :: rest =>
    match segments separator rest with
    | [] => [[c]]
    | piece :: pieces =>
      if c = separator then [] :: piece :: pieces else (c :: piece) :: pieces

/-- White space by the Unicode character database. -/
def isBlank (c : Char) : Bool :=
  let code := c.toNat
  (decide (0x09 ≤ code) && decide (code ≤ 0x0D)) || code == 0x20 || code == 0x85 ||
    code == 0xA0 || code == 0x1680 || (decide (0x2000 ≤ code) && decide (code ≤ 0x200A)) ||
    code == 0x2028 || code == 0x2029 || code == 0x202F || code == 0x205F || code == 0x3000

/-- A line that holds white space only. -/
def isBlankLine (line : List Char) : Bool := line.all isBlank

/-- A word with its first character in uppercase. -/
def capitalizeWord : List Char → List Char
  | [] => []
  | c :: rest => uppercase c ++ rest

/-- The words between underscores, each with its first character in uppercase, written
together. Empty words leave no trace. -/
def capitalized (name : String) : String :=
  String.ofList ((segments '_' name.toList).flatMap capitalizeWord)

end ResponseModels.Text
