import DerivativeHeaders.Number.Printed
import DerivativeHeaders.Proofs.Number.Decimal

/-! # Literals are stable under printing

A literal is kept as the number that its six decimal places read back as. Reading them back a
second time changes nothing: the nearest number of a whole count of steps rounds to that count. A
finite literal is kept as a finite number.
-/
namespace DerivativeHeaders

namespace Magnitude

theorem scaled_eq_iff {places steps : Nat} {m : Magnitude} :
    m.scaled places = steps ↔ IsHalfEven (m.units * tenPow places) unitsPerOne steps :=
  roundHalfEven_eq_iff unitsPerOne_pos

@[simp] theorem scaled_zero (places : Nat) : zero.scaled places = 0 := by
  rw [scaled_eq_iff]
  simp [IsHalfEven, zero]

/-- The nearest magnitude of a count of steps is not farther from them than the magnitude that was
rounded to them. A tie remains a tie, and the count is even in both cases. -/
theorem scaled_nearest? {places : Nat} {m y : Magnitude}
    (h : nearest? (m.scaled places) (tenPow places) = some y) :
    y.scaled places = m.scaled places := by
  obtain ⟨hhalf, htie⟩ := scaled_eq_iff.mp (rfl : m.scaled places = _)
  rw [scaled_eq_iff]
  have hclosest := nearestUnits_closest (m.scaled places) (tenPow_pos places) m.representable
  rw [nearest?_eq_some.mp h, Nat.dist_comm, Nat.dist_comm (m.units * _)] at hclosest
  refine ⟨by omega, fun hy => htie (by omega)⟩

/-- The largest magnitudes are a whole step of their grid below the limit. -/
theorem units_add_le (m : Magnitude) :
    m.units + twoPow (limitExponent - precision) ≤ unitsLimit := by
  obtain ⟨hlimit, significand, shift, hsig, hunits⟩ := m.representable
  rcases Nat.lt_or_ge shift (limitExponent - precision) with hlt | hge
  · have hhalf : m.units ≤ twoPow (limitExponent - 1) := by
      rw [hunits]
      refine Nat.le_trans (Nat.mul_le_mul_right _ (Nat.le_of_lt hsig)) ?_
      rw [← twoPow_add]
      apply twoPow_le_twoPow
      simp only [limitExponent, precision] at hlt ⊢
      omega
    have hstep : twoPow (limitExponent - precision) ≤ twoPow (limitExponent - 1) :=
      twoPow_le_twoPow (by decide)
    have hdouble : unitsLimit = twoPow (limitExponent - 1) + twoPow (limitExponent - 1) := by
      have hexp : limitExponent = limitExponent - 1 + 1 := rfl
      rw [unitsLimit, congrArg twoPow hexp, twoPow_add, show twoPow 1 = 2 from rfl, Nat.mul_two]
    omega
  · have hgrid : unitsLimit = twoPow precision * twoPow (limitExponent - precision) :=
      twoPow_add precision (limitExponent - precision)
    have hmultiple : m.units =
        significand * twoPow (shift - (limitExponent - precision)) *
        twoPow (limitExponent - precision) := by
      rw [hunits, Nat.mul_assoc, ← twoPow_add, Nat.sub_add_cancel hge]
    rw [hgrid] at hlimit ⊢
    rw [hmultiple] at hlimit ⊢
    have hlt := Nat.lt_of_mul_lt_mul_right hlimit
    rw [← Nat.succ_mul]
    exact Nat.mul_le_mul_right _ hlt

/-- Decimal places of a magnitude are never so far from it that no magnitude is nearest to them. -/
theorem exists_nearest?_scaled (m : Magnitude) :
    ∃ y, nearest? (m.scaled constantPlaces) (tenPow constantPlaces) = some y := by
  cases hy : nearest? (m.scaled constantPlaces) (tenPow constantPlaces) with
  | some y => exact ⟨y, rfl⟩
  | none =>
    have hfar := nearest?_eq_none.mp hy
    obtain ⟨hhalf, -⟩ := scaled_eq_iff.mp (rfl : m.scaled constantPlaces = _)
    have hclosest :=
      nearestUnits_closest (m.scaled constantPlaces) (tenPow_pos constantPlaces) m.representable
    have hroom := m.units_add_le
    have hsmall : 2 * unitsPerOne ≤ twoPow (limitExponent - precision) := by
      rw [show 2 = twoPow 1 from rfl, unitsPerOne, ← twoPow_add]
      exact twoPow_le_twoPow (by decide)
    have hfar := Nat.mul_le_mul_right (tenPow constantPlaces) hfar
    have hroom := Nat.mul_le_mul_right (tenPow constantPlaces) hroom
    have hsmall :=
      Nat.mul_le_mul_left (twoPow (limitExponent - precision)) (tenPow_pos constantPlaces)
    have hpos := unitsPerOne_pos
    rw [Nat.add_mul] at hroom
    simp only [Nat.dist] at hhalf hclosest
    omega

end Magnitude

namespace Decimal

theorem num_places (steps places : Nat) : num ⟨steps, -places⟩ = steps := by
  have hexp : (-(places : Int)).toNat = 0 := by omega
  simp only [num, hexp]
  exact Nat.mul_one steps

theorem den_places (steps places : Nat) : den ⟨steps, -places⟩ = tenPow places := by
  simp only [den, Int.neg_neg, Int.toNat_natCast]

/-- A decimal of `places` places is a quotient by their power of ten. -/
theorem nearest_places (negative : Bool) (steps places : Nat) :
    nearest negative ⟨steps, -places⟩ = .nearest negative steps (tenPow places) := by
  rw [nearest_eq, num_places, den_places]

end Decimal

namespace Binary64

theorem exists_eq_finite {x : Binary64} (hx : x.isFinite) :
    ∃ negative m, x = finite negative m := by
  cases x with
  | nan => cases hx
  | infinite negative => cases hx
  | finite negative m => exact ⟨negative, m, rfl⟩

theorem asPrinted_finite (negative : Bool) (m : Magnitude) :
    (finite negative m).asPrinted =
      if m.scaled constantPlaces = 0 then zero
      else .nearest negative (m.scaled constantPlaces) (tenPow constantPlaces) := by
  simp only [asPrinted]
  split
  · rfl
  · exact Decimal.nearest_places negative _ constantPlaces

@[simp] theorem asPrinted_zero : zero.asPrinted = zero := by
  rw [zero, asPrinted_finite, if_pos (Magnitude.scaled_zero _), zero]

theorem asPrinted_asPrinted (x : Binary64) : x.asPrinted.asPrinted = x.asPrinted := by
  cases x with
  | nan => rfl
  | infinite negative => rfl
  | finite negative m =>
    rw [asPrinted_finite]
    split
    · exact asPrinted_zero
    · rename_i hsteps
      rw [nearest]
      cases hy : Magnitude.nearest? (m.scaled constantPlaces) (tenPow constantPlaces) with
      | none => rfl
      | some y =>
        rw [Option.elim_some, asPrinted_finite, Magnitude.scaled_nearest? hy, if_neg hsteps,
          nearest, hy, Option.elim_some]

theorem isFinite_asPrinted (x : Binary64) : x.asPrinted.isFinite = x.isFinite := by
  cases x with
  | nan => rfl
  | infinite negative => rfl
  | finite negative m =>
    rw [asPrinted_finite]
    split
    · rfl
    · obtain ⟨y, hy⟩ := m.exists_nearest?_scaled
      rw [nearest, hy]
      rfl

/-- What prints as zero is kept as the zero without a sign. -/
theorem eq_zero_of_isZero {x : Binary64} (h : x.asPrinted = x) (hzero : x.isZero) : x = zero := by
  cases x with
  | nan => cases hzero
  | infinite negative => cases hzero
  | finite negative m =>
    rw [isZero, beq_iff_eq] at hzero
    rw [← h, asPrinted_finite, if_pos]
    rw [Magnitude.scaled_eq_iff]
    simp [IsHalfEven, hzero]

/-- A kept number other than zero is the nearest one of its decimal places. -/
theorem nearest_scaled {negative : Bool} {m : Magnitude}
    (h : (finite negative m).asPrinted = finite negative m)
    (hzero : (finite negative m).isZero = false) :
    Decimal.nearest negative ⟨m.scaled constantPlaces, -constantPlaces⟩ = finite negative m := by
  rw [asPrinted_finite] at h
  split at h
  · rw [← h] at hzero
    cases hzero
  · rw [Decimal.nearest_places, h]

end Binary64

end DerivativeHeaders
