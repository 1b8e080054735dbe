import DerivativeHeaders.Token
import DerivativeHeaders.Text.Offset
import DerivativeHeaders.Text.Quoted

/-! # Scanning a text

`Lexeme.scan` cuts a text into tokens and stray characters with their places. What it leaves
out is spaces, tabs, carriage returns and line feeds. -/
namespace DerivativeHeaders

inductive Lexeme where
  | token (t : Token)
  | stray (c : Char)
deriving DecidableEq

namespace Lexeme

def isGap (c : Char) : Bool := c == ' ' || c == '\t' || c == '\r' || c == '\n'

/-- The numeral at the front, or the first character alone. -/
def nextNumber (c : Char) (cs : List Char) : Lexeme × Nat :=
  match Numeral.scan (c :: cs) with
  | some (n, rest) => (token (.number n.value), cs.length - rest.length)
  | none => (stray c, 0)

/-- A mark of two characters if the second one follows, otherwise what is given. -/
def nextMark (second : Char) (long : Token) (short : Lexeme) : List Char → Lexeme × Nat
  | [] => (short, 0)
  | c :: _ => if c = second then (token long, 1) else (short, 0)

/-- The lexeme that starts with `c`, and how many characters it has after `c`. -/
def next (c : Char) (cs : List Char) : Lexeme × Nat :=
  if Identifier.isStart c then
    let more := cs.takeWhile Identifier.isContinuation
    (token (.ofIdentifier (c :: more)), more.length)
  else if c.isDigit || c == '-' then nextNumber c cs
  else
    match c with
    | '/' => nextMark '*' (.mark .commentOpen) (stray c) cs
    | '*' => nextMark '/' (.mark .commentClose) (token (.mark .star)) cs
    | ',' => (token (.mark .comma), 0)
    | '=' => (token (.mark .equals), 0)
    | '&' => (token (.mark .ampersand), 0)
    | '(' => (token (.mark .leftParen), 0)
    | ')' => (token (.mark .rightParen), 0)
    | ';' => (token (.mark .semicolon), 0)
    | _ => (stray c, 0)

/-- The lexemes of a text whose first byte is at `offset`, apart from its first `skip`
characters, which belong to the lexeme before. -/
def scanFrom (offset skip : Nat) : List Char → List (Located Lexeme)
  | [] => []
  | c :: cs =>
    match skip with
    | skip + 1 => scanFrom (offset + c.utf8Size) skip cs
    | 0 =>
      if isGap c then scanFrom (offset + c.utf8Size) 0 cs
      else
        let (lexeme, more) := next c cs
        ⟨lexeme, ⟨offset, offset + Text.byteSize (c :: cs.take more)⟩⟩ ::
          scanFrom (offset + c.utf8Size) more cs

def scan (cs : List Char) : List (Located Lexeme) := scanFrom 0 0 cs

def token? : Lexeme → Option Token
  | token t => some t
  | stray _ => none

def stray? : Lexeme → Option Char
  | token _ => none
  | stray c => some c

end Lexeme

namespace Located

/-- What `f` makes of the value, at the same place. -/
def filterMap {α β : Type} (f : α → Option β) (items : List (Located α)) : List (Located β) :=
  items.filterMap fun x => (f x.value).map (⟨·, x.span⟩)

end Located

def tokensOf (cs : List Char) : List (Located Token) :=
  Located.filterMap Lexeme.token? (Lexeme.scan cs)

/-- The characters of a text that belong to no token and to no gap. -/
def straysOf (cs : List Char) : List (Located Char) :=
  Located.filterMap Lexeme.stray? (Lexeme.scan cs)

def strayText (c : Char) : String :=
  "unexpected character: " ++ String.ofList (Text.quoted [c])

end DerivativeHeaders
