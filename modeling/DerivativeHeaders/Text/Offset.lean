/-! # Byte offsets

Places in a text are counted in bytes of its UTF-8 encoding. -/
namespace DerivativeHeaders

/-- The bytes of a text from `start` up to but not including `stop`. -/
structure Span where
  start : Nat
  stop : Nat
deriving DecidableEq

structure Located (α : Type) where
  value : α
  span : Span
deriving DecidableEq

namespace Text

def byteSize (cs : List Char) : Nat := cs.foldr (fun c n => c.utf8Size + n) 0

def takeBytes : Nat → List Char → List Char
  | _, [] => []
  | n, c :: cs => if c.utf8Size ≤ n then c :: takeBytes (n - c.utf8Size) cs else []

/-- The text from byte `n` on, which is the start of a character. -/
def dropBytes : Nat → List Char → List Char
  | _, [] => []
  | n, c :: cs => if n = 0 then c :: cs else dropBytes (n - c.utf8Size) cs

/-- The line, counted from one, that holds the byte at `offset` or the end of the text. -/
def lineOf (cs : List Char) (offset : Nat) : Nat := (takeBytes offset cs).count '\n' + 1

end Text

end DerivativeHeaders
