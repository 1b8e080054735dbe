import DerivativeHeaders.Text.Shapeless

/-! # Quoted text

A text in double quotes as messages show it. -/
namespace DerivativeHeaders.Text

/-- A character as it stands between the quotes: six have an escape of their own, one without a
shape is written as its code point. -/
def escapeChar (c : Char) : List Char :=
  if c = '\x00' then ['\\', '0']
  else if c = '\t' then ['\\', 't']
  else if c = '\n' then ['\\', 'n']
  else if c = '\r' then ['\\', 'r']
  else if c = '"' then ['\\', '"']
  else if c = '\\' then ['\\', '\\']
  else if isShapeless c then
    '\\' :: 'u' :: '\x7b' :: Nat.toDigits 16 c.toNat ++ ['\x7d']
  else [c]

def quoted (cs : List Char) : List Char := '"' :: cs.flatMap escapeChar ++ ['"']

end DerivativeHeaders.Text
