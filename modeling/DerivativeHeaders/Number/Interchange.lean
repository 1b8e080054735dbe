import DerivativeHeaders.Number.Binary64

/-! # The interchange format

Sign, eleven exponent bits and fifty-two fraction bits of a number, as one 64-bit word. -/
namespace DerivativeHeaders.Binary64

def fractionBits : Nat := 52

def signPlace : Nat := 63

/-- The exponent field of the numbers that are not finite. -/
def topField : Nat := 2047

/-- The word of a finite magnitude: its exponent field is zero as long as the units fit the
fraction. -/
def magnitudeWord (m : Magnitude) : Nat :=
  if m.units < twoPow fractionBits then m.units
  else
    let shift := m.units.log2 - fractionBits
    (shift + 1) * twoPow fractionBits + (m.units / twoPow shift - twoPow fractionBits)

def signWord (negative : Bool) : Nat := if negative then twoPow signPlace else 0

def toWord : Binary64 → Nat
  | nan => topField * twoPow fractionBits + twoPow (fractionBits - 1)
  | infinite negative => signWord negative + topField * twoPow fractionBits
  | finite negative m => signWord negative + magnitudeWord m

def exponentField (word : Nat) : Nat := word / twoPow fractionBits % (topField + 1)

def fraction (word : Nat) : Nat := word % twoPow fractionBits

theorem fraction_lt (word : Nat) : fraction word < twoPow fractionBits :=
  Nat.mod_lt _ (twoPow_pos _)

theorem twoPow_precision : twoPow precision = twoPow fractionBits + twoPow fractionBits := by decide

theorem representable_fraction (word : Nat) : Representable (fraction word) :=
  representable_of_lt (by have := fraction_lt word; have := twoPow_precision; omega)

theorem representable_scaled {word : Nat} (h : exponentField word < topField) :
    Representable ((twoPow fractionBits + fraction word) * twoPow (exponentField word - 1)) := by
  have hsig : twoPow fractionBits + fraction word < twoPow precision := by
    have := fraction_lt word
    have := twoPow_precision
    omega
  refine representable_mul_twoPow (Nat.le_of_lt hsig) ?_
  refine Nat.lt_of_lt_of_le (Nat.mul_lt_mul_of_pos_right hsig (twoPow_pos _)) ?_
  rw [← twoPow_add]
  exact twoPow_le_unitsLimit (by unfold topField at h; unfold precision limitExponent; omega)

/-- Bits above the sixty-fourth are ignored; every payload is the one not-a-number. -/
def ofWord (word : Nat) : Binary64 :=
  let negative := word / twoPow signPlace % 2 == 1
  if h : exponentField word < topField then
    if exponentField word = 0 then finite negative ⟨_, representable_fraction word⟩
    else finite negative ⟨_, representable_scaled h⟩
  else if fraction word = 0 then infinite negative
  else nan

end DerivativeHeaders.Binary64
