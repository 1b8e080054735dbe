import DerivativeHeaders.Identifier
import DerivativeHeaders.Number.Numeral
import DerivativeHeaders.Number.Text

/-! # Tokens

The words, numbers and marks of which declaration lists and prototypes consist. -/
namespace DerivativeHeaders

inductive Keyword where
  | const
  | void
deriving DecidableEq

inductive Mark where
  | commentOpen
  | commentClose
  | comma
  | equals
  | star
  | ampersand
  | leftParen
  | rightParen
  | semicolon
deriving DecidableEq

inductive Token where
  | keyword (k : Keyword)
  | mark (m : Mark)
  | number (x : Binary64)
  | word (name : String)
deriving DecidableEq

def Keyword.text : Keyword → String
  | const => "const"
  | void => "void"

def Mark.text : Mark → String
  | commentOpen => "/*"
  | commentClose => "*/"
  | comma => ","
  | equals => "="
  | star => "*"
  | ampersand => "&"
  | leftParen => "("
  | rightParen => ")"
  | semicolon => ";"

namespace Token

def text : Token → String
  | keyword k => k.text
  | mark m => m.text
  | number x => NumberStyle.message.text x
  | word name => name

def ofIdentifier (cs : List Char) : Token :=
  if cs = ['c', 'o', 'n', 's', 't'] then keyword .const
  else if cs = ['v', 'o', 'i', 'd'] then keyword .void
  else word (String.ofList cs)

end Token

/-- Names that no token of a text stands for as a word. -/
def isReserved (s : String) : Bool := s == "const" || s == "void"

end DerivativeHeaders
