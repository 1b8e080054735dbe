import DerivativeHeaders.Number.Power

/-! # Binary floating point numbers of 64 bits

A finite number is a sign and a magnitude, and a magnitude is a whole number of units of
`2 ^ -unitExponent`, the smallest positive one. `Binary64.nearest` rounds a quotient of natural
numbers to the nearest magnitude, a tie going to the even significand.
-/
namespace DerivativeHeaders

/-- The quotient `num / den` rounded to a whole number, a half to the even neighbour. -/
def roundHalfEven (num den : Nat) : Nat :=
  let q := num / den
  let r := num % den
  if 2 * r < den then q else if den < 2 * r then q + 1 else q + q % 2

theorem div_le_roundHalfEven (num den : Nat) : num / den ≤ roundHalfEven num den := by
  simp only [roundHalfEven]
  split
  · exact Nat.le_refl _
  · split <;> omega

theorem roundHalfEven_le (num den : Nat) : roundHalfEven num den ≤ num / den + 1 := by
  simp only [roundHalfEven]
  split
  · omega
  · split <;> omega

def precision : Nat := 53

def unitExponent : Nat := 1074

def unitsPerOne : Nat := twoPow unitExponent

def limitExponent : Nat := 2098

def unitsLimit : Nat := twoPow limitExponent

/-- A significand of bounded precision, scaled by a power of two, below the limit. -/
def Representable (units : Nat) : Prop :=
  units < unitsLimit ∧
    ∃ significand shift, significand < twoPow precision ∧ units = significand * twoPow shift

structure Magnitude where
  units : Nat
  representable : Representable units
deriving DecidableEq

inductive Binary64 where
  | nan
  | infinite (negative : Bool)
  | finite (negative : Bool) (magnitude : Magnitude)
deriving DecidableEq

theorem representable_mul_twoPow {significand shift : Nat} (h : significand ≤ twoPow precision)
    (hlimit : significand * twoPow shift < unitsLimit) :
    Representable (significand * twoPow shift) := by
  refine ⟨hlimit, ?_⟩
  rcases Nat.lt_or_eq_of_le h with h | rfl
  · exact ⟨significand, shift, h, rfl⟩
  · exact ⟨1, precision + shift, by decide, by rw [twoPow_add, Nat.one_mul]⟩

theorem twoPow_le_unitsLimit {k : Nat} (h : k ≤ limitExponent) : twoPow k ≤ unitsLimit :=
  twoPow_le_twoPow h

theorem representable_of_lt {units : Nat} (h : units < twoPow precision) : Representable units :=
  ⟨Nat.lt_of_lt_of_le h (twoPow_le_unitsLimit (by decide)),
    units, 0, h, (Nat.mul_one units).symm⟩

namespace Magnitude

def zero : Magnitude := ⟨0, representable_of_lt (by decide)⟩

instance : Inhabited Magnitude := ⟨zero⟩

/-- How many low bits of `units` do not fit a significand. -/
def excessBits (units : Nat) : Nat := units.log2 + 1 - precision

theorem div_twoPow_excessBits (units : Nat) :
    units / twoPow (excessBits units) < twoPow precision := by
  rw [Nat.div_lt_iff_lt_mul (twoPow_pos _), ← twoPow_add]
  exact Nat.lt_of_lt_of_le (lt_twoPow_log2 units)
    (twoPow_le_twoPow (by unfold excessBits; omega))

/-- The significand of the magnitude nearest to `num / den`, and the shift that scales it. -/
def nearestParts (num den : Nat) : Nat × Nat :=
  let shift := excessBits (num * unitsPerOne / den)
  (roundHalfEven (num * unitsPerOne) (den * twoPow shift), shift)

theorem nearestParts_fst_le (num den : Nat) : (nearestParts num den).1 ≤ twoPow precision := by
  refine Nat.le_trans (roundHalfEven_le _ _) ?_
  rw [← Nat.div_div_eq_div_mul]
  exact div_twoPow_excessBits _

/-- The magnitude nearest to `num / den`, none from halfway past the largest one. -/
def nearest? (num den : Nat) : Option Magnitude :=
  let parts := nearestParts num den
  if h : parts.1 * twoPow parts.2 < unitsLimit then
    some ⟨parts.1 * twoPow parts.2, representable_mul_twoPow (nearestParts_fst_le num den) h⟩
  else none

end Magnitude

namespace Binary64

def zero : Binary64 := finite false .zero

instance : Inhabited Binary64 := ⟨zero⟩

/-- The number nearest to `num / den` with the given sign, infinite beyond the finite ones. -/
def nearest (negative : Bool) (num den : Nat) : Binary64 :=
  (Magnitude.nearest? num den).elim (infinite negative) (finite negative)

def isFinite : Binary64 → Bool
  | finite .. => true
  | _ => false

def isZero : Binary64 → Bool
  | finite _ m => m.units == 0
  | _ => false

end Binary64

end DerivativeHeaders
