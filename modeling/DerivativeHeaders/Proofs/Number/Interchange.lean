import DerivativeHeaders.Number.Interchange

/-! # Numbers written as words

A word has a sign, an exponent field and a fraction, and each number is written with its own. So the
word of a number is read as this number.
-/
namespace DerivativeHeaders

namespace Magnitude

variable {m : Magnitude}

theorem log2_lt_of_lt_twoPow {n k : Nat} (hn : n ≠ 0) (h : n < twoPow k) : n.log2 < k :=
  (Nat.log2_lt hn).mpr h

/-- How many low bits of a large magnitude are not in its word. -/
def shift (m : Magnitude) : Nat := m.units.log2 - Binary64.fractionBits

theorem ne_zero_of_large (h : ¬ m.units < twoPow Binary64.fractionBits) : m.units ≠ 0 := by
  intro hzero
  rw [hzero] at h
  exact h (twoPow_pos _)

theorem fractionBits_le_log2 (h : ¬ m.units < twoPow Binary64.fractionBits) :
    Binary64.fractionBits ≤ m.units.log2 :=
  (Nat.le_log2 (ne_zero_of_large h)).mpr (Nat.le_of_not_lt h)

/-- The bits that are not in the word are zero. -/
theorem twoPow_shift_dvd (h : ¬ m.units < twoPow Binary64.fractionBits) :
    twoPow m.shift ∣ m.units := by
  obtain ⟨-, significand, k, hsignificand, hunits⟩ := m.representable
  have hlt : m.units < twoPow (precision + k) := by
    rw [hunits, twoPow_add]
    exact Nat.mul_lt_mul_of_pos_right hsignificand (twoPow_pos k)
  have hlog : m.units.log2 < precision + k := log2_lt_of_lt_twoPow (ne_zero_of_large h) hlt
  have hk : m.shift ≤ k := by
    rw [shift]
    unfold precision at hlog
    unfold Binary64.fractionBits
    omega
  rw [hunits]
  exact Nat.dvd_mul_left_of_dvd (Nat.pow_dvd_pow 2 hk) significand

/-- The leading bits are as many as fit the fraction, and one more. -/
theorem leading_bounds (h : ¬ m.units < twoPow Binary64.fractionBits) :
    twoPow Binary64.fractionBits ≤ m.units / twoPow m.shift ∧
      m.units / twoPow m.shift < twoPow Binary64.fractionBits + twoPow Binary64.fractionBits := by
  have hlog : Binary64.fractionBits + m.shift = m.units.log2 :=
    Nat.add_sub_cancel' (fractionBits_le_log2 h)
  constructor
  · rw [Nat.le_div_iff_mul_le (twoPow_pos _), ← twoPow_add, hlog]
    exact Nat.log2_self_le (ne_zero_of_large h)
  · rw [← Binary64.twoPow_precision, Nat.div_lt_iff_lt_mul (twoPow_pos _), ← twoPow_add]
    refine Nat.lt_of_lt_of_le (lt_twoPow_log2 m.units) (twoPow_le_twoPow ?_)
    unfold precision
    unfold Binary64.fractionBits at hlog
    omega

theorem shift_lt (h : ¬ m.units < twoPow Binary64.fractionBits) :
    m.shift + 1 < Binary64.topField := by
  have hlog : m.units.log2 < limitExponent :=
    log2_lt_of_lt_twoPow (ne_zero_of_large h) m.representable.1
  rw [shift]
  unfold limitExponent at hlog
  unfold Binary64.fractionBits Binary64.topField
  omega

end Magnitude

namespace Binary64

variable {negative : Bool} {field bits : Nat}

/-- The word with these parts. -/
def ofParts (negative : Bool) (field bits : Nat) : Nat :=
  signWord negative + (field * twoPow fractionBits + bits)

theorem parts_ofParts (negative : Bool) (hfield : field ≤ topField)
    (hbits : bits < twoPow fractionBits) :
    exponentField (ofParts negative field bits) = field ∧
      fraction (ofParts negative field bits) = bits ∧
        (ofParts negative field bits / twoPow signPlace % 2 == 1) = negative := by
  have htwoPow : twoPow fractionBits = 4503599627370496 := rfl
  have hsign : twoPow signPlace = 2048 * 4503599627370496 := rfl
  simp only [exponentField, fraction, ofParts, signWord, topField, htwoPow, hsign] at hfield hbits ⊢
  cases negative with
  | false =>
    simp only [Bool.false_eq_true, ↓reduceIte, beq_eq_false_iff_ne]
    omega
  | true =>
    simp only [↓reduceIte, beq_iff_eq]
    omega

theorem ofWord_top (hbits : bits < twoPow fractionBits) :
    ofWord (ofParts negative topField bits) = if bits = 0 then infinite negative else nan := by
  obtain ⟨hfield, hfraction, hsign⟩ := parts_ofParts negative (Nat.le_refl _) hbits
  unfold ofWord
  dsimp only
  rw [dif_neg (by rw [hfield]; exact Nat.lt_irrefl _), hfraction, hsign]

theorem ofWord_finite (hfield : field < topField) (hbits : bits < twoPow fractionBits)
    {m : Magnitude}
    (hm : m.units =
      if field = 0 then bits else (twoPow fractionBits + bits) * twoPow (field - 1)) :
    ofWord (ofParts negative field bits) = finite negative m := by
  obtain ⟨hexponent, hfraction, hsign⟩ :=
    parts_ofParts negative (Nat.le_of_lt hfield) hbits
  unfold ofWord
  dsimp only
  rw [dif_pos (by rw [hexponent]; exact hfield), hsign]
  obtain ⟨units, hunits⟩ := m
  obtain rfl : units = _ := hm
  simp only [hexponent, hfraction]
  split <;> rfl

/-- The word of a number is read as the number. -/
theorem ofWord_toWord (x : Binary64) : ofWord x.toWord = x := by
  cases x with
  | nan =>
    have hword : toWord nan = ofParts false topField (twoPow (fractionBits - 1)) :=
      (Nat.zero_add _).symm
    rw [hword, ofWord_top (by decide), if_neg (by decide)]
  | infinite negative => exact ofWord_top (twoPow_pos _)
  | finite negative m =>
    rw [toWord, magnitudeWord]
    split
    · rename_i hsmall
      have hword : signWord negative + m.units = ofParts negative 0 m.units := by
        rw [ofParts, Nat.zero_mul, Nat.zero_add]
      rw [hword]
      exact ofWord_finite (by decide) hsmall rfl
    · rename_i hlarge
      obtain ⟨hlow, hhigh⟩ := Magnitude.leading_bounds hlarge
      have hbits : m.units / twoPow m.shift - twoPow fractionBits < twoPow fractionBits := by omega
      refine ofWord_finite (Magnitude.shift_lt hlarge) hbits ?_
      rw [if_neg (Nat.succ_ne_zero _), Nat.add_sub_cancel' hlow, Nat.add_sub_cancel,
        Nat.div_mul_cancel (Magnitude.twoPow_shift_dvd hlarge)]

end Binary64

end DerivativeHeaders
