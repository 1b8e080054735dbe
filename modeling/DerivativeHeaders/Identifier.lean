/-! # Identifiers

The names that generated code may use. A field name has no capital letter, which keeps the
marks of a channel name apart from the variable names inside it. -/
namespace DerivativeHeaders

namespace Identifier

def isStart (c : Char) : Bool := c.isAlpha || c == '_'

def isContinuation (c : Char) : Bool := c.isAlphanum || c == '_'

/-- A letter or underscore, then letters, digits and underscores, all of ASCII. -/
def isValidChars : List Char → Bool
  | [] => false
  | c :: cs => isStart c && cs.all isContinuation

end Identifier

namespace FieldName

def isStart (c : Char) : Bool := c.isLower || c == '_'

def isContinuation (c : Char) : Bool := c.isLower || c.isDigit || c == '_'

def isValidChars : List Char → Bool
  | [] => false
  | c :: cs => isStart c && cs.all isContinuation

end FieldName

def isIdentifier (s : String) : Bool := Identifier.isValidChars s.toList

def isFieldName (s : String) : Bool := FieldName.isValidChars s.toList

theorem FieldName.isValidChars_identifier {cs : List Char} (h : FieldName.isValidChars cs) :
    Identifier.isValidChars cs := by
  cases cs with
  | nil => exact h
  | cons c cs =>
    simp only [FieldName.isValidChars, FieldName.isStart, FieldName.isContinuation,
      Identifier.isValidChars, Identifier.isStart, Identifier.isContinuation, Char.isAlphanum,
      Bool.and_eq_true, Bool.or_eq_true, List.all_eq_true] at h ⊢
    have isAlpha_of_isLower {x : Char} (hx : x.isLower) : x.isAlpha :=
      Bool.or_eq_true_iff.mpr (.inr hx)
    refine ⟨h.1.imp_left isAlpha_of_isLower, fun x hx => ?_⟩
    rcases h.2 x hx with (h | h) | h
    · exact .inl (.inl (isAlpha_of_isLower h))
    · exact .inl (.inr h)
    · exact .inr h

/-- The pieces of a text between the occurrences of `::`, taken from left to right. -/
def pathSegments : List Char → List (List Char)
  | [] => [[]]
  | ':' :: ':' :: cs => [] :: pathSegments cs
  | c :: cs =>
    match pathSegments cs with
    | [] => [[c]]
    | segment :: rest => (c :: segment) :: rest

def isQualifiedPath (s : String) : Bool := (pathSegments s.toList).all Identifier.isValidChars

end DerivativeHeaders
