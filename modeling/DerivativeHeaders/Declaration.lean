import DerivativeHeaders.Token.Scan

/-! # Declaration lists

A list of entries `type name = number` with commas between them and perhaps one at the end, the
type and the number optional. The reader goes through the tokens once and refuses the list at
the first token that cannot continue it. -/
namespace DerivativeHeaders

structure Declaration where
  type : Option (Located String)
  name : Located String
  value : Option Binary64
  span : Span
deriving DecidableEq

namespace Declaration

/-- What may follow at some place of a list. -/
inductive Expectation where
  /-- An entry, or the end. -/
  | entry
  /-- A second word, a value, a comma or the end. -/
  | afterWord
  /-- A value, a comma or the end. -/
  | afterName
  | number
  /-- A comma or the end. -/
  | afterNumber
deriving DecidableEq

def Expectation.text : Expectation → String
  | entry => "something else, or end of input"
  | afterWord => "something else, '=', ',', or end of input"
  | afterName => "'=', ',', or end of input"
  | number => "something else"
  | afterNumber => "',', or end of input"

/-- A token, or the end of the text, that cannot stand where it stands. -/
structure Refusal where
  found : Option Token
  expected : Expectation
  span : Span
deriving DecidableEq

def Refusal.message (r : Refusal) : String :=
  let found :=
    match r.found with
    | some t => "'" ++ t.text ++ "'"
    | none => "end of input"
  "found " ++ found ++ " expected " ++ r.expected.text

inductive Progress where
  | nothing
  | word (w : Located String)
  | typed (type name : Located String)
  /-- An equals sign stands after the name. -/
  | equals (type : Option (Located String)) (name : Located String)
  | complete (d : Declaration)
deriving DecidableEq

def untyped (w : Located String) : Declaration := ⟨none, w, none, w.span⟩

def typed (type name : Located String) : Declaration :=
  ⟨some type, name, none, ⟨type.span.start, name.span.stop⟩⟩

/-- The entry of a type, a name and a number that ends at `stop`. -/
def valued (type : Option (Located String)) (name : Located String) (x : Binary64)
    (stop : Nat) : Declaration :=
  ⟨type, name, some x, ⟨(type.getD name).span.start, stop⟩⟩

def refuse {α : Type} (t : Located Token) (expected : Expectation) : Except Refusal α :=
  .error ⟨some t.value, expected, t.span⟩

/-- Reads on after part of an entry. The text has `size` bytes. -/
def readFrom (size : Nat) (progress : Progress) :
    List (Located Token) → Except Refusal (List Declaration)
  | [] =>
    match progress with
    | .nothing => .ok []
    | .word w => .ok [untyped w]
    | .typed type name => .ok [typed type name]
    | .equals .. => .error ⟨none, .number, ⟨size, size⟩⟩
    | .complete d => .ok [d]
  | t :: ts =>
    match progress, t.value with
    | .nothing, .word name => readFrom size (.word ⟨name, t.span⟩) ts
    | .nothing, _ => refuse t .entry
    | .word w, .word name => readFrom size (.typed w ⟨name, t.span⟩) ts
    | .word w, .mark .equals => readFrom size (.equals none w) ts
    | .word w, .mark .comma => (untyped w :: ·) <$> readFrom size .nothing ts
    | .word _, _ => refuse t .afterWord
    | .typed type name, .mark .equals => readFrom size (.equals (some type) name) ts
    | .typed type name, .mark .comma => (typed type name :: ·) <$> readFrom size .nothing ts
    | .typed .., _ => refuse t .afterName
    | .equals type name, .number x =>
      readFrom size (.complete (valued type name x t.span.stop)) ts
    | .equals .., _ => refuse t .number
    | .complete d, .mark .comma => (d :: ·) <$> readFrom size .nothing ts
    | .complete _, _ => refuse t .afterNumber

def readTokens (cs : List Char) : Except Refusal (List Declaration) :=
  readFrom (Text.byteSize cs) .nothing (tokensOf cs)

inductive Complaint where
  | stray (c : Char)
  | refused (r : Refusal)

def Complaint.message : Complaint → String
  | stray c => strayText c
  | refused r => r.message

/-- All complaints about a list: its stray characters, then a refusal of its tokens. -/
def complaints (cs : List Char) : List (Located Complaint) :=
  (straysOf cs).map (fun x => ⟨.stray x.value, x.span⟩) ++
    match readTokens cs with
    | .ok _ => []
    | .error r => [⟨.refused r, r.span⟩]

/-- The entries of a list without stray characters, or the first complaint. -/
def readList (cs : List Char) : Except (Located Complaint) (List Declaration) :=
  match straysOf cs with
  | x :: _ => .error ⟨.stray x.value, x.span⟩
  | [] => (readTokens cs).mapError fun r => ⟨.refused r, r.span⟩

end Declaration

end DerivativeHeaders
