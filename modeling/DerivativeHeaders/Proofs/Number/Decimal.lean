import DerivativeHeaders.Number.Shortest
import DerivativeHeaders.Proofs.Number.Nearest

/-! # Decimals as quotients

The nearest number of a decimal is that of the quotient it stands for, so two spellings of one
value read as one number. The shortest decimal of a magnitude reads back as the magnitude.
-/
namespace DerivativeHeaders

theorem twoPow_mul_le_tenPow (k : Nat) : twoPow (3 * k) ≤ tenPow k := by
  induction k with
  | zero => exact Nat.le_refl _
  | succ k ih =>
    rw [Nat.mul_succ, twoPow_add, tenPow_add]
    exact Nat.mul_le_mul ih (by decide)

theorem le_log2 {k n : Nat} (hn : n ≠ 0) (h : twoPow k ≤ n) : k ≤ n.log2 := (Nat.le_log2 hn).mpr h

theorem twoPow_log2_le {n : Nat} (hn : n ≠ 0) : twoPow n.log2 ≤ n := Nat.log2_self_le hn

theorem tenPow_le_tenPow {j k : Nat} (h : j ≤ k) : tenPow j ≤ tenPow k :=
  Nat.pow_le_pow_right (by decide) h

theorem unitsLimit_le_tenPow : unitsLimit ≤ tenPow 310 * unitsPerOne := by decide +kernel

theorem twice_units_lt (n : Nat) : 2 * (n * unitsPerOne) < twoPow (n.log2 + 1076) := by
  have hsplit : twoPow (n.log2 + 1076) = 2 * (twoPow (n.log2 + 1) * unitsPerOne) := by
    rw [show n.log2 + 1076 = 1 + (n.log2 + 1 + unitExponent) by simp only [unitExponent]; omega,
      twoPow_add, twoPow_add]
    rfl
  rw [hsplit]
  have hlt := Nat.mul_lt_mul_of_pos_right (lt_twoPow_log2 n) unitsPerOne_pos
  omega

namespace Magnitude

theorem ext_units {m m' : Magnitude} (h : m.units = m'.units) : m = m' := by
  cases m
  cases m'
  cases h
  rfl

theorem nearest?_zero {den : Nat} (hden : 0 < den) : nearest? 0 den = some zero :=
  nearest?_of_eq hden (by simp [zero])

/-- A quotient at or beyond the limit has no nearest magnitude. -/
theorem nearest?_eq_none_of_le {num den : Nat} (hden : 0 < den)
    (h : unitsLimit * den ≤ num * unitsPerOne) :
    nearest? num den = none := by
  rw [nearest?_eq_none]
  have hfloor : unitsLimit ≤ num * unitsPerOne / den := (Nat.le_div_iff_mul_le hden).mpr h
  simp only [nearestUnits, nearestParts]
  generalize hunits : num * unitsPerOne / den = units at hfloor
  have hne : units ≠ 0 := by
    have := twoPow_pos limitExponent
    simp only [unitsLimit] at hfloor
    omega
  have hlog : limitExponent ≤ units.log2 := le_log2 hne hfloor
  have hsum : precision - 1 + excessBits units = units.log2 := by
    simp only [excessBits, precision, limitExponent] at hlog ⊢
    omega
  have hsig : twoPow (precision - 1) ≤ num * unitsPerOne / (den * twoPow (excessBits units)) := by
    rw [← Nat.div_div_eq_div_mul, hunits, Nat.le_div_iff_mul_le (twoPow_pos _), ← twoPow_add, hsum]
    exact twoPow_log2_le hne
  calc unitsLimit ≤ twoPow units.log2 := twoPow_le_twoPow hlog
    _ = twoPow (precision - 1) * twoPow (excessBits units) := by rw [← twoPow_add, hsum]
    _ ≤ _ := Nat.mul_le_mul_right _ (Nat.le_trans hsig (div_le_roundHalfEven _ _))

/-- A quotient below half a unit rounds to zero. -/
theorem nearest?_eq_zero_of_lt {num den : Nat} (h : 2 * (num * unitsPerOne) < den) :
    nearest? num den = some zero := by
  rw [nearest?_eq_some]
  have hfloor : num * unitsPerOne / den = 0 := Nat.div_eq_of_lt (by omega)
  have hexcess : excessBits 0 = 0 := rfl
  have hone : den * twoPow 0 = den := Nat.mul_one den
  have hround : roundHalfEven (num * unitsPerOne) den = 0 := by
    rw [roundHalfEven_eq_iff (by omega)]
    simp only [IsHalfEven, Nat.dist]
    constructor <;> omega
  simp only [nearestUnits, nearestParts, hfloor, hexcess, hone, hround, zero, Nat.zero_mul]

end Magnitude

namespace Decimal

def num (d : Decimal) : Nat := d.mantissa * tenPow d.exponent.toNat

def den (d : Decimal) : Nat := tenPow (-d.exponent).toNat

theorem den_pos (d : Decimal) : 0 < d.den := tenPow_pos _

/-- The answers that `nearest` knows without the power of ten are those of the quotient. -/
theorem nearest_eq (negative : Bool) (d : Decimal) :
    d.nearest negative = .nearest negative d.num d.den := by
  obtain ⟨mantissa, exponent⟩ := d
  simp only [nearest, num, den, Binary64.nearest]
  split
  · rename_i hzero
    rw [hzero, Nat.zero_mul, Magnitude.nearest?_zero (tenPow_pos _), Option.elim_some]
  · rename_i hmantissa
    cases exponent with
    | ofNat k =>
      have hden : tenPow (-(Int.ofNat k)).toNat = 1 := by
        rw [show (-(Int.ofNat k)).toNat = 0 by simp]
        rfl
      rw [hden]
      dsimp only [Int.ofNat_eq_natCast, Int.toNat_natCast]
      split
      · rename_i hk
        have hlarge : unitsLimit * 1 ≤ mantissa * tenPow k * unitsPerOne := by
          rw [Nat.mul_one]
          exact Nat.le_trans unitsLimit_le_tenPow (Nat.mul_le_mul_right _
            (Nat.le_trans (tenPow_le_tenPow hk)
            (Nat.le_mul_of_pos_left _ (Nat.pos_of_ne_zero hmantissa))))
        rw [Magnitude.nearest?_eq_none_of_le Nat.one_pos hlarge, Option.elim_none]
      · rfl
    | negSucc k =>
      have hnum : mantissa * tenPow (Int.negSucc k).toNat = mantissa := Nat.mul_one _
      have hden : (-Int.negSucc k).toNat = k + 1 := rfl
      rw [hnum, hden]
      dsimp only
      split
      · rename_i hk
        have hsmall : 2 * (mantissa * unitsPerOne) < tenPow (k + 1) :=
          Nat.lt_of_lt_of_le (twice_units_lt mantissa)
            (Nat.le_trans (twoPow_le_twoPow hk) (twoPow_mul_le_tenPow _))
        rw [Magnitude.nearest?_eq_zero_of_lt hsmall, Option.elim_some]
      · rfl

def Same (d d' : Decimal) : Prop := d.num * d'.den = d'.num * d.den

theorem nearest_congr {d d' : Decimal} (h : d.Same d') (negative : Bool) :
    d.nearest negative = d'.nearest negative := by
  rw [nearest_eq, nearest_eq, Binary64.nearest, Binary64.nearest,
    Magnitude.nearest?_congr d.den_pos d'.den_pos h]

/-- Moving a factor of ten between mantissa and exponent. -/
theorem same_scale (mantissa k : Nat) (exponent : Int) :
    Same ⟨mantissa * tenPow k, exponent⟩ ⟨mantissa, exponent + k⟩ := by
  simp only [Same, num, den]
  have hexp : k + exponent.toNat + (-(exponent + k)).toNat =
      (exponent + k).toNat + (-exponent).toNat := by omega
  calc mantissa * tenPow k * tenPow exponent.toNat * tenPow (-(exponent + k)).toNat
      = mantissa * tenPow (k + exponent.toNat + (-(exponent + k)).toNat) := by
        simp only [tenPow_add, Nat.mul_assoc]
    _ = mantissa * tenPow (exponent + k).toNat * tenPow (-exponent).toNat := by
        rw [hexp, tenPow_add, Nat.mul_assoc]

theorem nearest_scale (mantissa k : Nat) (exponent : Int) (negative : Bool) :
    nearest negative ⟨mantissa * tenPow k, exponent⟩ = nearest negative ⟨mantissa, exponent + k⟩ :=
  nearest_congr (same_scale mantissa k exponent) negative

theorem nearest_trim (negative : Bool) (d : Decimal) :
    d.trim.nearest negative = d.nearest negative := by
  fun_induction trim d with
  | case1 d h ih =>
    rw [ih]
    have hten : d.mantissa / 10 * tenPow 1 = d.mantissa :=
      Nat.div_mul_cancel (Nat.dvd_of_mod_eq_zero h.2)
    have := nearest_scale (d.mantissa / 10) 1 d.exponent negative
    rw [hten] at this
    exact this.symm
  | case2 => rfl

/-- The sign plays no part in the choice of the magnitude. -/
theorem nearest_eq_finite {d : Decimal} {m : Magnitude} {negative : Bool} :
    d.nearest negative = .finite negative m ↔ Magnitude.nearest? d.num d.den = some m := by
  rw [nearest_eq, Binary64.nearest]
  cases Magnitude.nearest? d.num d.den <;> simp

end Decimal

namespace Magnitude

theorem nearest_exact (m : Magnitude) (negative : Bool) :
    m.exact.nearest negative = .finite negative m := by
  rw [Decimal.nearest_eq_finite]
  refine nearest?_of_eq (Decimal.den_pos _) ?_
  have hten : tenPow unitExponent = Nat.pow 5 unitExponent * unitsPerOne := by decide +kernel
  simp only [exact, Decimal.num, Decimal.den]
  have hnum : tenPow (-(unitExponent : Int)).toNat = 1 := rfl
  have hden : (- -(unitExponent : Int)).toNat = unitExponent := rfl
  rw [hnum, hden, hten, Nat.mul_one, Nat.mul_assoc]

theorem nearest_of_onGrid? {tie : Tie} {m : Magnitude} {step : Int} {d : Decimal}
    (h : m.onGrid? tie step = some d) : m.readsBack d := by
  simp only [onGrid?] at h
  split at h
  · rename_i hlower
    split at h
    · rename_i hupper
      cases h
      exact (Bool.and_eq_true _ _ ▸ hupper).1
    · cases h
      exact hlower
  · split at h
    · rename_i hupper
      cases h
      exact hupper
    · cases h

/-- The shortest decimal of a magnitude reads back as the magnitude. -/
theorem nearest_shortest (tie : Tie) (m : Magnitude) (negative : Bool) :
    (m.shortest tie).nearest negative = .finite negative m := by
  simp only [shortest]
  split
  · rename_i hzero
    rw [show m = zero from ext_units hzero]
    rfl
  · rw [Decimal.nearest_trim]
    cases hfound : (List.range 17).findSome? fun (k : Nat) =>
      m.onGrid? tie (m.leadingExponent - k) with
    | none => exact m.nearest_exact negative
    | some d =>
      obtain ⟨k, -, hk⟩ := List.exists_of_findSome?_eq_some hfound
      have hback := nearest_of_onGrid? hk
      rw [readsBack, beq_iff_eq, Decimal.nearest_eq_finite] at hback
      exact Decimal.nearest_eq_finite.mpr hback

end Magnitude

end DerivativeHeaders
