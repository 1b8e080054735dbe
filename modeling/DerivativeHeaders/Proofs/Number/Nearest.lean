import Mathlib.Data.Nat.Dist
import Mathlib.Tactic.Ring
import DerivativeHeaders.Number.Decimal

/-! # What nearest means

The rounded quotient is a nearest whole number and, of two, the even one; the nearest magnitude
is as close as any representable number. Both follow from the position of the quotient between
two neighbours of the grid.
-/
namespace DerivativeHeaders

/-- `r` is within half a step of `num / den`, and even when it is exactly half a step away. -/
def IsHalfEven (num den r : Nat) : Prop :=
  2 * (r * den).dist num ≤ den ∧ (2 * (r * den).dist num = den → r % 2 = 0)

theorem isHalfEven_roundHalfEven {den : Nat} (num : Nat) (hden : 0 < den) :
    IsHalfEven num den (roundHalfEven num den) := by
  have hdiv := Nat.div_add_mod' num den
  have hlt := Nat.mod_lt num hden
  simp only [IsHalfEven, roundHalfEven, Nat.dist]
  generalize num / den = q at hdiv ⊢
  generalize num % den = r at hdiv hlt ⊢
  have hsucc : (q + 1) * den = q * den + den := Nat.succ_mul q den
  split
  · constructor <;> omega
  · split
    · constructor <;> omega
    · rcases Nat.mod_two_eq_zero_or_one q with h | h
      · rw [h, Nat.add_zero]
        constructor <;> omega
      · rw [h]
        constructor <;> omega

theorem IsHalfEven.eq {num den r r' : Nat} (hden : 0 < den) (h : IsHalfEven num den r)
    (h' : IsHalfEven num den r') : r = r' := by
  have apart : ∀ {a b : Nat}, IsHalfEven num den a → IsHalfEven num den b → ¬ a < b := by
    intro a b ha hb hlt
    have hstep : a * den + den ≤ b * den := by
      rw [← Nat.succ_mul]
      exact Nat.mul_le_mul_right den hlt
    obtain ⟨ha, hae⟩ := ha
    obtain ⟨hb, hbe⟩ := hb
    simp only [Nat.dist] at ha hae hb hbe
    have hnext : a * den + den = b * den := by omega
    have hsucc : b = a + 1 := by
      rw [← Nat.succ_mul] at hnext
      exact (Nat.eq_of_mul_eq_mul_right hden hnext).symm
    omega
  exact Nat.le_antisymm (Nat.not_lt.mp (apart h' h)) (Nat.not_lt.mp (apart h h'))

theorem roundHalfEven_eq_iff {num den r : Nat} (hden : 0 < den) :
    roundHalfEven num den = r ↔ IsHalfEven num den r :=
  ⟨fun h => h ▸ isHalfEven_roundHalfEven num hden,
    fun h => (isHalfEven_roundHalfEven num hden).eq hden h⟩

/-- No multiple of the step is closer than the rounded one. -/
theorem roundHalfEven_closest (num k : Nat) {den : Nat} (hden : 0 < den) :
    (roundHalfEven num den * den).dist num ≤ (k * den).dist num := by
  obtain ⟨h, -⟩ := isHalfEven_roundHalfEven num hden
  generalize roundHalfEven num den = r at h ⊢
  simp only [Nat.dist] at h ⊢
  rcases Nat.lt_trichotomy k r with hlt | rfl | hlt
  · have := Nat.mul_le_mul_right den (Nat.succ_le_of_lt hlt)
    rw [Nat.succ_mul] at this
    omega
  · exact Nat.le_refl _
  · have := Nat.mul_le_mul_right den (Nat.succ_le_of_lt hlt)
    rw [Nat.succ_mul] at this
    omega

theorem roundHalfEven_mul_left {k : Nat} (hk : 0 < k) (num den : Nat) :
    roundHalfEven (k * num) (k * den) = roundHalfEven num den := by
  simp only [roundHalfEven, Nat.mul_div_mul_left _ _ hk, Nat.mul_mod_mul_left]
  have hleft : 2 * (k * (num % den)) < k * den ↔ 2 * (num % den) < den := by
    rw [Nat.mul_left_comm, Nat.mul_lt_mul_left hk]
  have hright : k * den < 2 * (k * (num % den)) ↔ den < 2 * (num % den) := by
    rw [Nat.mul_left_comm, Nat.mul_lt_mul_left hk]
  simp only [hleft, hright]

theorem tenPow_pos (k : Nat) : 0 < tenPow k := Nat.pow_pos (by decide)

theorem tenPow_add (j k : Nat) : tenPow (j + k) = tenPow j * tenPow k := Nat.pow_add 10 j k

theorem unitsPerOne_pos : 0 < unitsPerOne := twoPow_pos _

namespace Magnitude

def nearestUnits (num den : Nat) : Nat :=
  (nearestParts num den).1 * twoPow (nearestParts num den).2

theorem nearest?_eq_some {num den : Nat} {m : Magnitude} :
    nearest? num den = some m ↔ nearestUnits num den = m.units := by
  simp only [nearest?]
  split
  · rw [Option.some.injEq]
    constructor
    · rintro rfl
      rfl
    · rintro h
      cases m
      simp only [nearestUnits] at h
      simp only [h]
  · rename_i hlimit
    refine iff_of_false nofun fun h => hlimit ?_
    simp only [nearestUnits] at h
    exact h ▸ m.representable.1

theorem nearest?_eq_none {num den : Nat} :
    nearest? num den = none ↔ unitsLimit ≤ nearestUnits num den := by
  simp only [nearest?, nearestUnits]
  split
  · rename_i h
    exact iff_of_false nofun (Nat.not_le.mpr h)
  · rename_i h
    exact iff_of_true rfl (Nat.not_lt.mp h)

/-- Below the grid of a quotient there are only numbers up to its lowest significand. -/
theorem le_of_not_on_grid {units significand shift : Nat} (hsig : significand < twoPow precision)
    (hshift : shift < excessBits units) :
    significand * twoPow shift ≤ twoPow (precision - 1) * twoPow (excessBits units) ∧
      twoPow (precision - 1) * twoPow (excessBits units) ≤ units := by
  have hlog : precision - 1 + excessBits units = units.log2 := by
    simp only [excessBits, precision] at hshift ⊢
    omega
  have hne : units ≠ 0 := by
    rintro rfl
    simp [excessBits, precision] at hshift
  rw [← twoPow_add, hlog]
  refine ⟨?_, Nat.log2_self_le hne⟩
  refine Nat.le_trans (Nat.mul_le_mul_right _ (Nat.le_of_lt hsig)) ?_
  rw [← twoPow_add]
  exact twoPow_le_twoPow (by simp only [precision] at hlog ⊢; omega)

/-- No representable number is closer to the quotient than the one that `nearestParts` gives. -/
theorem nearestUnits_closest (num : Nat) {den w : Nat} (hden : 0 < den) (hw : Representable w) :
    (nearestUnits num den * den).dist (num * unitsPerOne) ≤ (w * den).dist (num * unitsPerOne) := by
  obtain ⟨-, significand, shift, hsig, rfl⟩ := hw
  simp only [nearestUnits, nearestParts]
  generalize hexcess : excessBits (num * unitsPerOne / den) = excess
  generalize hN : num * unitsPerOne = N at hexcess ⊢
  have hstep : 0 < den * twoPow excess := Nat.mul_pos hden (twoPow_pos _)
  have hclosest := fun k => roundHalfEven_closest N k hstep
  have hassoc : ∀ k, k * twoPow excess * den = k * (den * twoPow excess) := fun k => by ring
  rw [hassoc]
  rcases Nat.lt_or_ge shift excess with hlt | hge
  · rw [← hexcess] at hlt
    obtain ⟨hlow, hhigh⟩ := le_of_not_on_grid hsig hlt
    rw [hexcess] at hlow hhigh
    have hle := Nat.mul_le_of_le_div den _ _ hhigh
    have hcorner := hclosest (twoPow (precision - 1))
    have hbelow := Nat.mul_le_mul_right den hlow
    rw [hassoc] at hle hbelow
    refine Nat.le_trans hcorner ?_
    simp only [Nat.dist]
    omega
  · have hgrid :
        significand * twoPow shift = significand * twoPow (shift - excess) * twoPow excess := by
      rw [Nat.mul_assoc, ← twoPow_add, Nat.sub_add_cancel hge]
    rw [hgrid, hassoc]
    exact hclosest _

theorem nearest?_of_eq {num den : Nat} {m : Magnitude} (hden : 0 < den)
    (h : num * unitsPerOne = m.units * den) : nearest? num den = some m := by
  rw [nearest?_eq_some]
  have hclosest := nearestUnits_closest num hden m.representable
  rw [h, Nat.dist_self, Nat.le_zero] at hclosest
  exact Nat.eq_of_mul_eq_mul_right hden (Nat.eq_of_dist_eq_zero hclosest)

theorem nearest?_mul_left {k : Nat} (hk : 0 < k) (num den : Nat) :
    nearest? (k * num) (k * den) = nearest? num den := by
  have hparts : nearestParts (k * num) (k * den) = nearestParts num den := by
    simp only [nearestParts, Nat.mul_assoc, Nat.mul_div_mul_left _ _ hk, roundHalfEven_mul_left hk]
  simp only [nearest?, hparts]

theorem nearest?_congr {num den num' den' : Nat} (hden : 0 < den) (hden' : 0 < den')
    (h : num * den' = num' * den) : nearest? num den = nearest? num' den' := by
  rw [← nearest?_mul_left hden' num den, ← nearest?_mul_left hden num' den', Nat.mul_comm den' num,
    h, Nat.mul_comm den' den, Nat.mul_comm num' den]

end Magnitude

end DerivativeHeaders
