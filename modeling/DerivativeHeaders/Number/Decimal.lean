import DerivativeHeaders.Number.Binary64

/-! # Decimal numbers

A decimal is `mantissa * 10 ^ exponent`. `Decimal.nearest` rounds it to a binary number;
`Magnitude.scaled` is the other direction at a fixed number of places. -/
namespace DerivativeHeaders

structure Decimal where
  mantissa : Nat
  exponent : Int
deriving DecidableEq

namespace Decimal

/-- The binary number nearest to the decimal. Far beyond both ends of the finite range the
answer is known without the power of ten. -/
def nearest (negative : Bool) (d : Decimal) : Binary64 :=
  if d.mantissa = 0 then .finite negative .zero
  else
    match d.exponent with
    | .ofNat k =>
      if 310 ≤ k then .infinite negative else .nearest negative (d.mantissa * tenPow k) 1
    | .negSucc k =>
      if d.mantissa.log2 + 1076 ≤ 3 * (k + 1) then .finite negative .zero
      else .nearest negative d.mantissa (tenPow (k + 1))

/-- The same number with a mantissa that does not end in zero, unless it is zero. -/
def trim (d : Decimal) : Decimal :=
  if h : d.mantissa ≠ 0 ∧ d.mantissa % 10 = 0 then
    trim ⟨d.mantissa / 10, d.exponent + 1⟩
  else d
termination_by d.mantissa
decreasing_by omega

def digits (d : Decimal) : List Char := Nat.toDigits 10 d.mantissa

def leadingExponent (d : Decimal) : Int := d.exponent + d.digits.length - 1

end Decimal

namespace Magnitude

/-- The magnitude in steps of `10 ^ -places`, a half going to the even step. -/
def scaled (places : Nat) (m : Magnitude) : Nat :=
  roundHalfEven (m.units * tenPow places) unitsPerOne

def exact (m : Magnitude) : Decimal := ⟨m.units * Nat.pow 5 unitExponent, -unitExponent⟩

end Magnitude

end DerivativeHeaders
