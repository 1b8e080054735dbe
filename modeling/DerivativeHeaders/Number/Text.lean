import DerivativeHeaders.Number.Shortest

/-! # Written numbers

`Binary64.fixed` writes a fixed number of places; `NumberStyle.text` writes the fewest digits
that read back, in one of three styles. -/
namespace DerivativeHeaders

structure NumberStyle where
  /-- The exponents of a first digit that are written without an exponent part, from the first
  number up to but not including the second; every exponent when there is no range. -/
  positional : Option (Int × Int)
  markWhole : Bool
  plusSign : Bool
  tie : Tie

namespace NumberStyle

/-- Numbers in a description and in a conflict of two values. -/
def description : NumberStyle := ⟨some (-4, 16), true, false, .up⟩

def message : NumberStyle := ⟨none, false, false, .up⟩

def summary : NumberStyle := ⟨some (-5, 16), true, true, .toEven⟩

def isPositional (style : NumberStyle) (e : Int) : Bool :=
  match style.positional with
  | none => true
  | some (low, high) => decide (low ≤ e) && decide (e < high)

def positionalText (style : NumberStyle) (d : Decimal) : List Char :=
  let digits := d.digits
  let e := d.leadingExponent
  if 0 ≤ d.exponent then
    digits ++ List.replicate d.exponent.toNat '0' ++ (if style.markWhole then ['.', '0'] else [])
  else if 0 ≤ e then
    digits.take (e.toNat + 1) ++ '.' :: digits.drop (e.toNat + 1)
  else '0' :: '.' :: List.replicate (-e - 1).toNat '0' ++ digits

def exponentText (style : NumberStyle) (d : Decimal) : List Char :=
  let e := d.leadingExponent
  let significand :=
    match d.digits with
    | first :: second :: rest => first :: '.' :: second :: rest
    | digits => digits
  let sign := if e < 0 then ['-'] else if style.plusSign then ['+'] else []
  significand ++ 'e' :: sign ++ Nat.toDigits 10 e.natAbs

def decimalText (style : NumberStyle) (d : Decimal) : List Char :=
  if style.isPositional d.leadingExponent then style.positionalText d else style.exponentText d

def signText (negative : Bool) : List Char := if negative then ['-'] else []

def text (style : NumberStyle) : Binary64 → String
  | .nan => "NaN"
  | .infinite negative => String.ofList (signText negative ++ "inf".toList)
  | .finite negative m =>
    String.ofList (signText negative ++ style.decimalText (m.shortest style.tie))

end NumberStyle

/-- `steps` steps of `10 ^ -places` as whole digits, a point and exactly `places` digits. -/
def fixedText (places steps : Nat) : List Char :=
  let fraction := Nat.toDigits 10 (steps % tenPow places)
  Nat.toDigits 10 (steps / tenPow places) ++
    '.' :: (List.replicate (places - fraction.length) '0' ++ fraction)

/-- The number at a fixed, positive count of places; the sign of what rounds to zero stays. -/
def Binary64.fixed (places : Nat) : Binary64 → String
  | .nan => "NaN"
  | .infinite negative => String.ofList (NumberStyle.signText negative ++ "inf".toList)
  | .finite negative m =>
    String.ofList (NumberStyle.signText negative ++ fixedText places (m.scaled places))

end DerivativeHeaders
