import DerivativeHeaders.Json

/-! # Indented JSON

Each item and each member has a line of its own, indented by two spaces for each array and
object around it. -/
namespace DerivativeHeaders.Json

def indentation (depth : Nat) : String := String.ofList (List.replicate (2 * depth) ' ')

/-- The parts between brackets, each on a line of its own. -/
def bracketed (left right : String) (depth : Nat) (parts : List String) : String :=
  if parts.isEmpty then left ++ right
  else
    left ++ "\n" ++
      String.intercalate ",\n" (parts.map (indentation (depth + 1) ++ ·)) ++
      "\n" ++ indentation depth ++ right

mutual

def pretty (depth : Nat) : Json → String
  | null => "null"
  | bool b => boolText b
  | integer n => toString n
  | float x => NumberStyle.summary.text x
  | text s => quoted s
  | array items => bracketed "[" "]" depth (prettyItems (depth + 1) items)
  | object members => bracketed "\x7b" "\x7d" depth (prettyMembers (depth + 1) members)

def prettyItems (depth : Nat) : List Json → List String
  | [] => []
  | item :: rest => pretty depth item :: prettyItems depth rest

def prettyMembers (depth : Nat) : List (String × Json) → List String
  | [] => []
  | (key, value) :: rest =>
    (quoted key ++ ": " ++ pretty depth value) :: prettyMembers depth rest

end

end DerivativeHeaders.Json
