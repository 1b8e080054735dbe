import DerivativeHeaders.Number.Text

/-! # JSON values

Objects hold their members in ascending order of the keys, each key once. `Json.compact` is
the text of a value without blanks. -/
namespace DerivativeHeaders

inductive Json where
  | null
  | bool (b : Bool)
  | integer (n : Int)
  | float (x : Binary64)
  | text (s : String)
  | array (items : List Json)
  | object (members : List (String × Json))

namespace Json

/-- Puts a member at its place among ascending ones, in place of one with the same key. -/
def insertMember (key : String) (value : Json) : List (String × Json) → List (String × Json)
  | [] => [(key, value)]
  | (k, v) :: rest =>
    if key < k then (key, value) :: (k, v) :: rest
    else if key = k then (key, value) :: rest
    else (k, v) :: insertMember key value rest

/-- The ascending members of a list of pairs; of two pairs with one key the later counts. -/
def membersOf (pairs : List (String × Json)) : List (String × Json) :=
  pairs.foldl (fun members x => insertMember x.1 x.2 members) []

def member? (key : String) (members : List (String × Json)) : Option Json :=
  (members.find? fun x => x.1 == key).map Prod.snd

def escapeChar (c : Char) : List Char :=
  if c = '"' then ['\\', '"']
  else if c = '\\' then ['\\', '\\']
  else if c = '\x08' then ['\\', 'b']
  else if c = '\x0c' then ['\\', 'f']
  else if c = '\n' then ['\\', 'n']
  else if c = '\r' then ['\\', 'r']
  else if c = '\t' then ['\\', 't']
  else if c.toNat < 0x20 then
    let digits := Nat.toDigits 16 c.toNat
    '\\' :: 'u' :: List.replicate (4 - digits.length) '0' ++ digits
  else [c]

def quoted (s : String) : String := String.ofList ('"' :: s.toList.flatMap escapeChar ++ ['"'])

def boolText (b : Bool) : String := if b then "true" else "false"

mutual

def compact : Json → String
  | null => "null"
  | bool b => boolText b
  | integer n => toString n
  | float x => NumberStyle.summary.text x
  | text s => quoted s
  | array items => "[" ++ String.intercalate "," (compactItems items) ++ "]"
  | object members => "\x7b" ++ String.intercalate "," (compactMembers members) ++ "\x7d"

def compactItems : List Json → List String
  | [] => []
  | item :: rest => compact item :: compactItems rest

def compactMembers : List (String × Json) → List String
  | [] => []
  | (key, value) :: rest => (quoted key ++ ":" ++ compact value) :: compactMembers rest

end

end Json

end DerivativeHeaders
