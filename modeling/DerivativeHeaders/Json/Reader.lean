import DerivativeHeaders.Json.Token

/-! # Reading JSON objects

The reader goes through the tokens once. It keeps the arrays and objects whose values are being
read, and what may come next. -/
namespace DerivativeHeaders.Json

/-- An array or object, the latest part first, around a value that is being read. -/
inductive Frame where
  | array (items : List Json)
  | object (members : List (String × Json)) (key : String)

inductive Expectation where
  | start
  /-- An item, or the end of an array without items. -/
  | firstItem
  | item
  /-- A comma or the end of an array. -/
  | afterItem (items : List Json)
  /-- A key, or the end of an object without members. -/
  | firstKey
  | key (members : List (String × Json))
  | colon (members : List (String × Json)) (key : String)
  | memberValue
  /-- A comma or the end of an object. -/
  | afterMember (members : List (String × Json))
  | finished (members : List (String × Json))

structure State where
  frames : List Frame
  next : Expectation

/-- As many arrays and objects, the outermost one included, may be open at a time. -/
def depthLimit : Nat := 127

def objectOf (members : List (String × Json)) : List (String × Json) := membersOf members.reverse

/-- Puts a complete value into the innermost frame. -/
def complete (frames : List Frame) (value : Json) : State :=
  match frames with
  | .array items :: frames => ⟨frames, .afterItem (value :: items)⟩
  | .object members key :: frames => ⟨frames, .afterMember ((key, value) :: members)⟩
  | [] => ⟨[], .start⟩

/-- The end of an object: the outermost one is the answer, another one is a value. -/
def closeObject (frames : List Frame) (members : List (String × Json)) : State :=
  match frames with
  | [] => ⟨[], .finished (objectOf members)⟩
  | _ :: _ => complete frames (.object (objectOf members))

def closeArray (frames : List Frame) (items : List Json) : State :=
  complete frames (.array items.reverse)

def noticed (t : Located Token) (cause : Cause) : Except Mishap State :=
  .error ⟨cause, t.span.start + 1⟩

def startValue (frames : List Frame) (t : Located Token) : Except Mishap State :=
  match t.value with
  | .openBrace =>
    if depthLimit ≤ frames.length then noticed t .tooDeep else .ok ⟨frames, .firstKey⟩
  | .openBracket =>
    if depthLimit ≤ frames.length then noticed t .tooDeep
    else .ok ⟨.array [] :: frames, .firstItem⟩
  | .scalar value => .ok (complete frames value)
  | .broken m | .brokenText m => .error m
  | _ => noticed t .expectedValue

def startText (t : Located Token) : Except Mishap State :=
  match t.value with
  | .openBrace => .ok ⟨[], .firstKey⟩
  | .openBracket => .error ⟨.notObject (.array []), t.span.start⟩
  | .scalar value => .error ⟨.notObject value, t.span.stop⟩
  | .broken m | .brokenText m => .error m
  | _ => noticed t .expectedValue

def startKey (frames : List Frame) (members : List (String × Json)) (t : Located Token) :
    Except Mishap State :=
  match t.value with
  | .scalar (.text key) => .ok ⟨frames, .colon members key⟩
  | .brokenText m => .error m
  | _ => noticed t .keyNotText

def step (s : State) (t : Located Token) : Except Mishap State :=
  match s.next, t.value with
  | .start, _ => startText t
  | .firstItem, .closeBracket => .ok (closeArray (s.frames.drop 1) [])
  | .firstItem, _ => startValue s.frames t
  | .item, .closeBracket => noticed t .trailingComma
  | .item, _ => startValue s.frames t
  | .afterItem items, .closeBracket => .ok (closeArray s.frames items)
  | .afterItem items, .comma => .ok ⟨.array items :: s.frames, .item⟩
  | .afterItem _, _ => noticed t .expectedCommaOrBracket
  | .firstKey, .closeBrace => .ok (closeObject s.frames [])
  | .firstKey, _ => startKey s.frames [] t
  | .key _, .closeBrace => noticed t .trailingComma
  | .key members, _ => startKey s.frames members t
  | .colon members key, .colon => .ok ⟨.object members key :: s.frames, .memberValue⟩
  | .colon .., _ => noticed t .expectedColon
  | .memberValue, _ => startValue s.frames t
  | .afterMember members, .closeBrace => .ok (closeObject s.frames members)
  | .afterMember members, .comma => .ok ⟨s.frames, .key members⟩
  | .afterMember _, _ => noticed t .expectedCommaOrBrace
  | .finished _, _ => noticed t .trailingCharacters

def finish (s : State) : Except Cause (List (String × Json)) :=
  match s.next with
  | .finished members => .ok members
  | .start | .item | .key _ | .memberValue => .error .endInValue
  | .firstItem | .afterItem _ => .error .endInList
  | .firstKey | .colon .. | .afterMember _ => .error .endInObject

def readObject (cs : List Char) : Except Fault (List (String × Json)) :=
  match (tokens cs).foldlM step ⟨[], .start⟩ with
  | .error m => .error (m.locate cs)
  | .ok s =>
    match finish s with
    | .ok members => .ok members
    | .error cause => .error (Mishap.locate cs ⟨cause, Text.byteSize cs⟩)

end DerivativeHeaders.Json
