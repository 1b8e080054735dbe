import DerivativeHeaders.Number.Decimal

/-! # The fewest digits that read back

`Magnitude.shortest` is a decimal that rounds to the magnitude, on the coarsest decimal grid
that has one among the two neighbours of the magnitude; of two it is the nearer. -/
namespace DerivativeHeaders

/-- Which of two decimals at the same distance is written. -/
inductive Tie where
  | up
  | toEven
deriving DecidableEq

def decimalLength (n : Nat) : Nat := (Nat.toDigits 10 n).length

namespace Magnitude

/-- The `e` with `10 ^ e ≤ m < 10 ^ (e + 1)`, for a magnitude above zero. -/
def leadingExponent (m : Magnitude) : Int :=
  if unitsPerOne ≤ m.units then (decimalLength (m.units / unitsPerOne) : Int) - 1
  else -(decimalLength ((unitsPerOne - 1) / m.units) : Int)

/-- The magnitude in steps of `10 ^ step`, as a numerator and a denominator. -/
def onGrid (m : Magnitude) : Int → Nat × Nat
  | .ofNat k => (m.units, unitsPerOne * tenPow k)
  | .negSucc k => (m.units * tenPow (k + 1), unitsPerOne)

def readsBack (m : Magnitude) (d : Decimal) : Bool := d.nearest false == .finite false m

/-- The neighbour of the magnitude on the grid of `10 ^ step` that reads back. -/
def onGrid? (tie : Tie) (m : Magnitude) (step : Int) : Option Decimal :=
  let (num, den) := m.onGrid step
  let below := num / den
  let twice := 2 * (num % den)
  let lower : Decimal := ⟨below, step⟩
  let upper : Decimal := ⟨below + 1, step⟩
  if m.readsBack lower then
    if m.readsBack upper && (den < twice ||
        den == twice && (tie == .up || below % 2 == 1)) then some upper
    else some lower
  else if m.readsBack upper then some upper
  else none

/-- The first hit on the grids of one, two, … seventeen digits. -/
def shortest (tie : Tie) (m : Magnitude) : Decimal :=
  if m.units = 0 then ⟨0, 0⟩
  else
    let e := m.leadingExponent
    (((List.range 17).findSome? fun (k : Nat) => m.onGrid? tie (e - k)).getD m.exact).trim

end Magnitude

end DerivativeHeaders
