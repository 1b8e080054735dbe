import DerivativeHeaders.Number.Decimal

/-! # Numerals

The spelling of a number: an optional minus, digits, an optional fraction and an optional
exponent. `Numeral.scan` takes the longest numeral at the front of a text: a point or an
exponent mark that no digit follows is not part of it. -/
namespace DerivativeHeaders

inductive Sign where
  | plus
  | minus
deriving DecidableEq

def Sign.char : Sign → Char
  | .plus => '+'
  | .minus => '-'

structure ExponentPart where
  mark : Char
  sign : Option Sign
  digits : List Char
deriving DecidableEq

structure Numeral where
  negative : Bool
  whole : List Char
  fraction : List Char
  exponent : Option ExponentPart
deriving DecidableEq

def digitsValue (digits : List Char) : Nat := Nat.ofDigitChars 10 digits 0

namespace ExponentPart

def spelling (x : ExponentPart) : List Char :=
  x.mark :: (x.sign.map Sign.char).toList ++ x.digits

def value (x : ExponentPart) : Int :=
  if x.sign = some .minus then -(digitsValue x.digits : Int) else digitsValue x.digits

end ExponentPart

namespace Numeral

def spelling (n : Numeral) : List Char :=
  (if n.negative then ['-'] else []) ++ n.whole ++
    (if n.fraction = [] then [] else '.' :: n.fraction) ++
    (match n.exponent with
      | some x => x.spelling
      | none => [])

def decimal (n : Numeral) : Decimal where
  mantissa := digitsValue (n.whole ++ n.fraction)
  exponent := (n.exponent.map ExponentPart.value).getD 0 - n.fraction.length

def value (n : Numeral) : Binary64 := n.decimal.nearest n.negative

/-- A point and at least one digit, or nothing. -/
def scanFraction : List Char → List Char × List Char
  | '.' :: cs =>
    if cs.takeWhile Char.isDigit = [] then ([], '.' :: cs)
    else (cs.takeWhile Char.isDigit, cs.dropWhile Char.isDigit)
  | cs => ([], cs)

def scanSign : List Char → Option Sign × List Char
  | '+' :: cs => (some .plus, cs)
  | '-' :: cs => (some .minus, cs)
  | cs => (none, cs)

/-- An exponent mark, an optional sign and at least one digit, or nothing. -/
def scanExponent : List Char → Option ExponentPart × List Char
  | [] => (none, [])
  | c :: cs =>
    if c = 'e' ∨ c = 'E' then
      let (sign, rest) := scanSign cs
      if rest.takeWhile Char.isDigit = [] then (none, c :: cs)
      else (some ⟨c, sign, rest.takeWhile Char.isDigit⟩, rest.dropWhile Char.isDigit)
    else (none, c :: cs)

def scanMinus : List Char → Bool × List Char
  | '-' :: cs => (true, cs)
  | cs => (false, cs)

/-- The longest numeral at the front, and what follows it. -/
def scan (cs : List Char) : Option (Numeral × List Char) :=
  let (negative, unsigned) := scanMinus cs
  let whole := unsigned.takeWhile Char.isDigit
  if whole = [] then none
  else
    let (fraction, afterFraction) := scanFraction (unsigned.dropWhile Char.isDigit)
    let (exponent, rest) := scanExponent afterFraction
    some (⟨negative, whole, fraction, exponent⟩, rest)

end Numeral

end DerivativeHeaders
