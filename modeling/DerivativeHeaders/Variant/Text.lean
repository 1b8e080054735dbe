import DerivativeHeaders.Json.Reader
import DerivativeHeaders.Variant

/-! # Variants as text

A variant is written as a JSON object with one boolean member for each toggle. A strict reader
wants exactly these keys; a lenient one takes a missing key as off and leaves others alone. -/
namespace DerivativeHeaders.Variant

inductive TextFault where
  | notObject (fault : Json.Fault)
  /-- A strict reader found other keys. -/
  | keys (unknown : List String) (missing : List Toggle)
  | notBoolean (toggle : Toggle) (found : Json)

def TextFault.message : TextFault → String
  | notObject fault => fault.message
  | keys unknown missing =>
    "key set mismatch (unknown: [" ++ String.intercalate ", " unknown ++ "], missing: [" ++
      String.intercalate ", " (missing.map Toggle.key) ++ "])"
  | notBoolean toggle found =>
    "'" ++ toggle.key ++ "' must be a boolean, found " ++ found.compact

def memberLine (v : Variant) (t : Toggle) : String :=
  "  \"" ++ t.key ++ "\": " ++ Json.boolText (v.get t)

/-- The lines of the text: a brace, a member each, a brace. -/
def textLines (v : Variant) : List String :=
  ["\x7b", v.memberLine .firstOrder ++ ",", v.memberLine .secondOrder, "\x7d"]

def toText (v : Variant) : String := String.intercalate "\n" v.textLines

/-- The toggle as the members set it, off if they do not. -/
def readToggle (members : List (String × Json)) (t : Toggle) : Except TextFault Bool :=
  match Json.member? t.key members with
  | none => .ok false
  | some (.bool b) => .ok b
  | some found => .error (.notBoolean t found)

def checkKeys (members : List (String × Json)) : Except TextFault Unit :=
  let unknown := (members.map Prod.fst).filter fun k => (Toggle.ofKey? k).isNone
  let missing := Toggle.all.filter fun t => (Json.member? t.key members).isNone
  if unknown = [] ∧ missing = [] then .ok () else .error (.keys unknown missing)

def ofMembers (strict : Bool) (members : List (String × Json)) : Except TextFault Variant := do
  if strict then checkKeys members
  let firstOrder ← readToggle members .firstOrder
  let secondOrder ← readToggle members .secondOrder
  return ⟨firstOrder, secondOrder⟩

def ofText (strict : Bool) (text : String) : Except TextFault Variant :=
  match Json.readObject text.toList with
  | .error fault => .error (.notObject fault)
  | .ok members => ofMembers strict members

end DerivativeHeaders.Variant
