/-! Numbers of GraphQL text. Only their form and the range of whole numbers matter. -/
namespace ResponseModels.GraphQL.Number

/-- The characters that end a number. -/
def isEnd (c : Char) : Bool := " \n\r\t,#!$:=@|&()[]\x7b\x7d".contains c

def isDigit (c : Char) : Bool := '0' ≤ c && c ≤ '9'

/-- Digits without a needless zero in front. -/
def isNatural (text : List Char) : Bool :=
  text == ['0'] || (!text.isEmpty && text.all isDigit && text.head? != some '0')

/-- The text without a minus sign in front. -/
def unsigned : List Char → List Char
  | '-' :: rest => rest
  | text => text

def isInteger (text : List Char) : Bool := isNatural (unsigned text)

def natural (digits : List Char) : Nat :=
  digits.foldl (fun n c => n * 10 + (c.toNat - '0'.toNat)) 0

/-- The first natural number that does not fit into 64 bits with a sign. -/
def bound : Nat := 9223372036854775808

/-- Does a whole number fit into 64 bits with a sign? -/
def inRange (text : List Char) : Bool :=
  if text.head? = some '-' then natural (unsigned text) ≤ bound
  else natural text < bound

/-- An exponent without a sign begins with a digit from 1 to 8; one with a sign has at least
one digit, and any will do. -/
def isExponent : List Char → Bool
  | [] => false
  | c :: rest =>
    if c == '+' || c == '-' then !rest.isEmpty && rest.all isDigit
    else '1' ≤ c && c ≤ '8' && rest.all isDigit

def startsExponent (c : Char) : Bool := c == 'e' || c == 'E'

/-- What follows the whole part: nothing, or a mark and an exponent. -/
def isExponentPart : List Char → Bool
  | [] => true
  | c :: rest => startsExponent c && isExponent rest

/-- What follows the whole part: a point with at least one digit, an exponent, or both. -/
def isFraction : List Char → Bool
  | [] => false
  | '.' :: rest =>
    !(rest.takeWhile isDigit).isEmpty && isExponentPart (rest.dropWhile isDigit)
  | rest => isExponentPart rest

def isFloat (text : List Char) : Bool :=
  let isMark := fun c => c == '.' || startsExponent c
  isInteger (text.takeWhile (!isMark ·)) && isFraction (text.dropWhile (!isMark ·))

/-- Is the text a number? -/
def isNumber (text : List Char) : Bool := (isInteger text && inRange text) || isFloat text

end ResponseModels.GraphQL.Number
