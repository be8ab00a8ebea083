import ResponseModels.Source.Location

/-! The tokens of GraphQL text. -/
namespace ResponseModels.GraphQL

/-- A token. Numbers keep no value: they occur only in arguments and default values, which
have no bearing on the shape of a response. -/
inductive Token where
  | punctuator (c : Char)
  | ellipsis
  | name (text : String)
  | number
  | string (value : String)
  deriving DecidableEq, Repr

/-- A token and the place where it begins. -/
structure Lexeme where
  token : Token
  position : Position
  deriving DecidableEq, Repr

/-- How many brackets of any kind may be open at once. -/
def maxOpenBrackets : Nat := 50

def isPunctuator (c : Char) : Bool := "()[]\x7b\x7d!$:=@|&".contains c

def isNameStart (c : Char) : Bool :=
  ('a' ≤ c && c ≤ 'z') || ('A' ≤ c && c ≤ 'Z') || c == '_'

def isNameRest (c : Char) : Bool := isNameStart c || ('0' ≤ c && c ≤ '9')

end ResponseModels.GraphQL
