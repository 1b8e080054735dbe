import DerivativeHeaders.Json.Number

/-! # Tokens of JSON

`Json.tokens` cuts a text into tokens with their places. A text that breaks off inside a token
ends in `Token.broken` or `Token.brokenText`, which say why. -/
namespace DerivativeHeaders.Json

inductive Token where
  | openBrace
  | closeBrace
  | openBracket
  | closeBracket
  | comma
  | colon
  | scalar (value : Json)
  | broken (mishap : Mishap)
  /-- A quote and what follows it, up to the mishap. -/
  | brokenText (mishap : Mishap)
  | other

/-- What a text between quotes yields: its characters and how many were read with the closing
quote, or a cause and the number of bytes up to where it is reported. -/
abbrev TextScan := Except (Cause × Nat) (List Char × Nat)

def hexValue? (c : Char) : Option Nat :=
  if c.isDigit then some (c.toNat - '0'.toNat)
  else if 'a' ≤ c ∧ c ≤ 'f' then some (c.toNat - 'a'.toNat + 10)
  else if 'A' ≤ c ∧ c ≤ 'F' then some (c.toNat - 'A'.toNat + 10)
  else none

def hexQuad? (a b c d : Char) : Option Nat := do
  let a ← hexValue? a
  let b ← hexValue? b
  let c ← hexValue? c
  let d ← hexValue? d
  return ((a * 16 + b) * 16 + c) * 16 + d

/-- The value at the front of a text whose first byte is at `offset`. A text of at least four
bytes that starts otherwise is a wrong escape, a shorter one breaks off. -/
def hexEscape (offset : Nat) (cs : List Char) : Except (Cause × Nat) Nat :=
  let read :=
    match cs with
    | a :: b :: c :: d :: _ => hexQuad? a b c d
    | _ => none
  match read with
  | some n => .ok n
  | none =>
    if 4 ≤ Text.byteSize cs then .error (.invalidEscape, offset + 4)
    else .error (.endInText, offset + Text.byteSize cs)

def isLeading (n : Nat) : Bool := 0xd800 ≤ n && n < 0xdc00

def isTrailing (n : Nat) : Bool := 0xdc00 ≤ n && n < 0xe000

/-- The character of an escape `\u`, whose digits start at `offset`, and the count of characters
of the escape after the `u`. -/
def unicodeEscape (offset : Nat) (cs : List Char) : Except (Cause × Nat) (Char × Nat) := do
  let n ← hexEscape offset cs
  if isTrailing n then .error (.loneSurrogate, offset + 4)
  else if isLeading n then
    match cs.drop 4 with
    | [] => .error (.endInText, offset + 4)
    | '\\' :: [] => .error (.endInText, offset + 5)
    | '\\' :: 'u' :: rest =>
      let m ← hexEscape (offset + 6) rest
      if isTrailing m then
        return (Char.ofNat (0x10000 + (n - 0xd800) * 0x400 + (m - 0xdc00)), 10)
      else .error (.loneSurrogate, offset + 10)
    | '\\' :: _ => .error (.unfinishedSurrogate, offset + 6)
    | _ => .error (.unfinishedSurrogate, offset + 5)
  else return (Char.ofNat n, 4)

def simpleEscape? (c : Char) : Option Char :=
  match c with
  | '"' => some '"'
  | '\\' => some '\\'
  | '/' => some '/'
  | 'b' => some '\x08'
  | 'f' => some '\x0c'
  | 'n' => some '\n'
  | 'r' => some '\r'
  | 't' => some '\t'
  | _ => none

/-- Reads up to the closing quote. The first `skip` characters belong to an escape that has been
read; `offset` bytes stand before the text. -/
def scanText (offset skip : Nat) : List Char → TextScan
  | [] => .error (.endInText, offset)
  | c :: cs =>
    match skip with
    | skip + 1 => do
      let (chars, read) ← scanText (offset + c.utf8Size) skip cs
      return (chars, read + 1)
    | 0 =>
      if c = '"' then .ok ([], 1)
      else if c = '\\' then
        match cs with
        | [] => .error (.endInText, offset + 1)
        | e :: es =>
          if e = 'u' then do
            let (escaped, length) ← unicodeEscape (offset + 2) es
            let (chars, read) ← scanText (offset + 1) (length + 1) cs
            return (escaped :: chars, read + 1)
          else
            match simpleEscape? e with
            | some escaped => do
              let (chars, read) ← scanText (offset + 1) 1 cs
              return (escaped :: chars, read + 1)
            | none => .error (.invalidEscape, offset + 2)
      else if c.toNat < 0x20 then .error (.controlCharacter, offset + 1)
      else do
        let (chars, read) ← scanText (offset + c.utf8Size) 0 cs
        return (c :: chars, read + 1)

/-- Reads the rest of a word of the language, none of whose characters takes two bytes. -/
def scanWord (offset : Nat) : List Char → List Char → Except (Cause × Nat) Unit
  | [], _ => .ok ()
  | _ :: _, [] => .error (.endInValue, offset)
  | e :: es, c :: cs =>
    if e = c then scanWord (offset + 1) es cs else .error (.expectedWord, offset + 1)

def wordToken (offset : Nat) (value : Json) (word cs : List Char) : Token × Nat :=
  match scanWord (offset + 1) word cs with
  | .ok () => (.scalar value, word.length)
  | .error (cause, place) => (.broken ⟨cause, place⟩, 0)

/-- The token that starts with `c` at `offset`, and how many characters it has after `c`. -/
def nextToken (offset : Nat) (c : Char) (cs : List Char) : Token × Nat :=
  match c with
  | '\x7b' => (.openBrace, 0)
  | '\x7d' => (.closeBrace, 0)
  | '[' => (.openBracket, 0)
  | ']' => (.closeBracket, 0)
  | ',' => (.comma, 0)
  | ':' => (.colon, 0)
  | 'n' => wordToken offset .null ['u', 'l', 'l'] cs
  | 't' => wordToken offset (.bool true) ['r', 'u', 'e'] cs
  | 'f' => wordToken offset (.bool false) ['a', 'l', 's', 'e'] cs
  | '"' =>
    match scanText (offset + 1) 0 cs with
    | .ok (chars, read) => (.scalar (.text (String.ofList chars)), read)
    | .error (cause, place) => (.brokenText ⟨cause, place⟩, 0)
  | _ =>
    if c = '-' ∨ c.isDigit then
      match scanNumber (c :: cs) with
      | .ok (value, length) => (.scalar value, length - 1)
      | .error (cause, length) => (.broken ⟨cause, offset + length⟩, 0)
    else (.other, 0)

def isBlank (c : Char) : Bool := c == ' ' || c == '\t' || c == '\n' || c == '\r'

/-- The tokens of a text whose first byte is at `offset`, apart from its first `skip` characters.
Nothing is read after a broken token. -/
def tokensFrom (offset skip : Nat) : List Char → List (Located Token)
  | [] => []
  | c :: cs =>
    match skip with
    | skip + 1 => tokensFrom (offset + c.utf8Size) skip cs
    | 0 =>
      if isBlank c then tokensFrom (offset + c.utf8Size) 0 cs
      else
        let (token, length) := nextToken offset c cs
        let span : Span := ⟨offset, offset + c.utf8Size + Text.byteSize (cs.take length)⟩
        match token with
        | .broken _ | .brokenText _ => [⟨token, span⟩]
        | _ => ⟨token, span⟩ :: tokensFrom (offset + c.utf8Size) length cs

def tokens (cs : List Char) : List (Located Token) := tokensFrom 0 0 cs

end DerivativeHeaders.Json
