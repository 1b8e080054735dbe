import Mathlib.Algebra.Order.Field.Basic
import Mathlib.Algebra.Order.Field.Rat
import DerivativeHeaders.Proofs.Number.Printed
import DerivativeHeaders.Proofs.Number.Written

/-! # Printed literals keep their text and their order

A number is printed on the grid of a power of ten and read back on the grid of the significands.
The number that the text is read as has the same text again, and only the sign of a zero is lost.
Both roundings take a nearest point of their grid, which alone keeps the order of the numbers.
-/
namespace DerivativeHeaders

/-- Nearest points are in the order of the points they are nearest to. -/
theorem le_of_nearest {a b x y : Nat} (hab : a ≤ b) (hx : x.dist a ≤ y.dist a)
    (hy : y.dist b ≤ x.dist b)
    (hsame : a = b → x = y) : x ≤ y := by
  apply Nat.le_of_not_lt
  intro hlt
  simp only [Nat.dist] at hx hy
  -- otherwise `a` is above the midpoint of `x` and `y`, and `b` below it
  have heq : a = b := by omega
  have := hsame heq
  omega

theorem roundHalfEven_le_roundHalfEven {num num' den : Nat} (hden : 0 < den) (h : num ≤ num') :
    roundHalfEven num den ≤ roundHalfEven num' den := by
  have hx := roundHalfEven_closest num (roundHalfEven num' den) hden
  have hy := roundHalfEven_closest num' (roundHalfEven num den) hden
  apply Nat.le_of_mul_le_mul_right _ hden
  apply le_of_nearest h hx hy
  rintro rfl
  rfl

namespace Magnitude

theorem nearest?_le_nearest? {num num' den : Nat} {m m' : Magnitude} (hden : 0 < den)
    (h : num ≤ num')
    (hm : nearest? num den = some m) (hm' : nearest? num' den = some m') : m.units ≤ m'.units := by
  have hx := nearestUnits_closest num hden m'.representable
  have hy := nearestUnits_closest num' hden m.representable
  rw [nearest?_eq_some.mp hm] at hx
  rw [nearest?_eq_some.mp hm'] at hy
  apply Nat.le_of_mul_le_mul_right _ hden
  apply le_of_nearest (Nat.mul_le_mul_right unitsPerOne h) hx hy
  intro heq
  have hnum : num = num' := Nat.eq_of_mul_eq_mul_right unitsPerOne_pos heq
  subst hnum
  rw [hm, Option.some.injEq] at hm'
  rw [hm']

theorem scaled_le_scaled {m m' : Magnitude} (places : Nat) (h : m.units ≤ m'.units) :
    m.scaled places ≤ m'.scaled places :=
  roundHalfEven_le_roundHalfEven unitsPerOne_pos (Nat.mul_le_mul_right _ h)

/-- The magnitude that the printed one is read as. -/
def reread (m : Magnitude) : Magnitude :=
  (nearest? (m.scaled constantPlaces) (tenPow constantPlaces)).getD zero

variable {m m' : Magnitude}

theorem nearest?_scaled (m : Magnitude) :
    nearest? (m.scaled constantPlaces) (tenPow constantPlaces) = some m.reread := by
  obtain ⟨y, hy⟩ := m.exists_nearest?_scaled
  rw [reread, hy, Option.getD_some]

@[simp] theorem scaled_reread (m : Magnitude) :
    m.reread.scaled constantPlaces = m.scaled constantPlaces :=
  scaled_nearest? m.nearest?_scaled

theorem reread_le_reread (h : m.units ≤ m'.units) : m.reread.units ≤ m'.reread.units :=
  nearest?_le_nearest? (tenPow_pos _) (scaled_le_scaled _ h) m.nearest?_scaled m'.nearest?_scaled

theorem reread_eq_zero_iff : m.reread = zero ↔ m.scaled constantPlaces = 0 := by
  constructor
  · intro h
    rw [← scaled_reread, h, scaled_zero]
  · intro h
    rw [reread, h, nearest?_zero (tenPow_pos _), Option.getD_some]

@[simp] theorem reread_zero : zero.reread = zero :=
  reread_eq_zero_iff.mpr (scaled_zero _)

theorem units_eq_zero_iff : m.units = 0 ↔ m = zero := by
  constructor
  · intro h
    exact ext_units h
  · rintro rfl
    rfl

end Magnitude

/-- One text does not spell two counts of steps, nor with two signs. -/
theorem Spells.steps_unique {cs : List Char} {negative negative' : Bool} {places steps steps' : Nat}
    (h : Spells cs negative ⟨steps, -places⟩) (h' : Spells cs negative' ⟨steps', -places⟩) :
    negative = negative' ∧ steps = steps' := by
  obtain ⟨n, hwf, hcs, hnegative, hsame⟩ := h
  obtain ⟨n', hwf', hcs', hnegative', hsame'⟩ := h'
  have hn : n = n' := by
    have hscan := Numeral.scan_spelling hwf
    rw [← hcs, hcs', Numeral.scan_spelling hwf'] at hscan
    cases hscan
    rfl
  subst hn
  refine ⟨hnegative.symm.trans hnegative', ?_⟩
  simp only [Decimal.Same, Decimal.num_places, Decimal.den_places] at hsame hsame'
  exact Nat.eq_of_mul_eq_mul_right n.decimal.den_pos (hsame.symm.trans hsame')

namespace Binary64

variable {negative negative' : Bool} {m m' : Magnitude} {x y : Binary64}

theorem fixed_eq_fixed_iff {places : Nat} (h : 0 < places) :
    (finite negative m).fixed places = (finite negative' m').fixed places ↔
      negative = negative' ∧ m.scaled places = m'.scaled places := by
  constructor
  · intro htext
    have hm := spells_fixed h negative m
    rw [htext] at hm
    exact hm.steps_unique (spells_fixed h negative' m')
  · rintro ⟨rfl, hsteps⟩
    rw [fixed, fixed, hsteps]

theorem fixed_zero (negative : Bool) :
    (finite negative .zero).fixed constantPlaces = if negative then "-0.000000"
      else "0.000000" := by
  rw [fixed, Magnitude.scaled_zero]
  cases negative <;> decide

theorem fixed_eq_zero_iff :
    (finite negative m).fixed constantPlaces = "0.000000" ∨
        (finite negative m).fixed constantPlaces = "-0.000000" ↔ m.scaled constantPlaces = 0 := by
  have hplaces : 0 < constantPlaces := by decide
  have hplus := fixed_zero false
  have hminus := fixed_zero true
  rw [if_neg Bool.false_ne_true] at hplus
  rw [if_pos rfl] at hminus
  rw [← hplus, ← hminus, fixed_eq_fixed_iff hplaces, fixed_eq_fixed_iff hplaces,
    Magnitude.scaled_zero]
  cases negative <;> simp

/-- The sum with the zero that has no sign: the sign of a zero is lost, and nothing else. -/
def plusZero (x : Binary64) : Binary64 := if x.isZero then zero else x

theorem isZero_finite_iff : (finite negative m).isZero ↔ m = .zero := by
  rw [isZero, beq_iff_eq, Magnitude.units_eq_zero_iff]

theorem plusZero_ne_negativeZero (x : Binary64) : x.plusZero ≠ .finite true .zero := by
  unfold plusZero
  split
  · nofun
  · rintro rfl
    contradiction

theorem plusZero_eq_zero_iff : (finite negative m).plusZero = zero ↔ m = .zero := by
  unfold plusZero
  split
  · rename_i hzero
    exact iff_of_true rfl (isZero_finite_iff.mp hzero)
  · rename_i hzero
    constructor
    · intro h
      exact absurd (congrArg isZero h) hzero
    · intro h
      exact absurd (isZero_finite_iff.mpr h) hzero

/-- A finite number is kept as the number its text is read as, without the sign of a zero. -/
theorem asPrinted_eq_plusZero (negative : Bool) (m : Magnitude) :
    (finite negative m).asPrinted = (finite negative m.reread).plusZero := by
  rw [asPrinted_finite, plusZero]
  simp only [isZero_finite_iff, Magnitude.reread_eq_zero_iff]
  split
  · rfl
  · rw [nearest, m.nearest?_scaled, Option.elim_some]

theorem asPrinted_eq_zero_iff :
    (finite negative m).asPrinted = zero ↔ m.scaled constantPlaces = 0 := by
  rw [asPrinted_eq_plusZero, plusZero_eq_zero_iff, Magnitude.reread_eq_zero_iff]

theorem fixed_asPrinted (negative : Bool) (m : Magnitude) :
    (finite negative m).asPrinted.fixed constantPlaces =
      if (finite negative m).fixed constantPlaces = "-0.000000" then "0.000000"
      else (finite negative m).fixed constantPlaces := by
  have hplaces : 0 < constantPlaces := by decide
  by_cases hsteps : m.scaled constantPlaces = 0
  · have htext : (finite negative m).fixed constantPlaces =
        (finite negative .zero).fixed constantPlaces := by
      rw [fixed_eq_fixed_iff hplaces, Magnitude.scaled_zero]
      exact ⟨rfl, hsteps⟩
    rw [asPrinted_eq_zero_iff.mpr hsteps, htext, zero, fixed_zero, fixed_zero]
    cases negative <;> decide
  · have hminus : (finite negative m).fixed constantPlaces ≠ "-0.000000" := by
      intro h
      exact hsteps (fixed_eq_zero_iff.mp (.inr h))
    have hzero : ¬ (finite negative m.reread).isZero := by
      rw [isZero_finite_iff, Magnitude.reread_eq_zero_iff]
      exact hsteps
    rw [if_neg hminus, asPrinted_eq_plusZero, plusZero, if_neg hzero, fixed_eq_fixed_iff hplaces]
    exact ⟨rfl, m.scaled_reread⟩

/-- The units of a finite number, counted below zero for a negative one. -/
def signedUnits : Binary64 → Int
  | finite false m => m.units
  | finite true m => -m.units
  | _ => 0

/-- The exact value of a finite number. -/
def toRat (x : Binary64) : ℚ := x.signedUnits / unitsPerOne

theorem toRat_le_toRat : x.toRat ≤ y.toRat ↔ x.signedUnits ≤ y.signedUnits := by
  have hpos : (0 : ℚ) < unitsPerOne := Nat.cast_pos.mpr unitsPerOne_pos
  rw [toRat, toRat, div_le_div_iff_of_pos_right hpos, Int.cast_le]

theorem signedUnits_plusZero (negative : Bool) (m : Magnitude) :
    (finite negative m).plusZero.signedUnits = (finite negative m).signedUnits := by
  unfold plusZero
  split
  · rename_i hzero
    rw [isZero_finite_iff.mp hzero]
    cases negative <;> rfl
  · rfl

theorem signedUnits_asPrinted_le
    (h : (finite negative m).signedUnits ≤ (finite negative' m').signedUnits) :
    (finite negative m).asPrinted.signedUnits ≤ (finite negative' m').asPrinted.signedUnits := by
  simp only [asPrinted_eq_plusZero, signedUnits_plusZero]
  cases negative with
  | false =>
    cases negative' with
    | false =>
      simp only [signedUnits] at h ⊢
      have := Magnitude.reread_le_reread (Int.ofNat_le.mp h)
      omega
    | true =>
      -- only two zeros can be in this order
      simp only [signedUnits] at h ⊢
      have hm : m = .zero := Magnitude.units_eq_zero_iff.mp (by omega)
      have hm' : m' = .zero := Magnitude.units_eq_zero_iff.mp (by omega)
      rw [hm, hm', Magnitude.reread_zero]
      decide
  | true =>
    cases negative' with
    | false =>
      simp only [signedUnits]
      omega
    | true =>
      simp only [signedUnits] at h ⊢
      have hle : m'.units ≤ m.units := by omega
      have := Magnitude.reread_le_reread hle
      omega

theorem exists_numeral (negative : Bool) (m : Magnitude) :
    ∃ n, Numeral.scan ((finite negative m).fixed constantPlaces).toList = some (n, []) ∧
      n.value = finite negative m.reread := by
  obtain ⟨n, hscan, hvalue⟩ := (spells_fixed (by decide : 0 < constantPlaces) negative m).scan
  refine ⟨n, hscan, ?_⟩
  rw [hvalue, Decimal.nearest_places, nearest, m.nearest?_scaled, Option.elim_some]

/-- What printing at `constantPlaces` and reading back make of a number: one with the same text,
with the same result again, at its place in the order of the numbers. -/
structure PrintsStably (x : Binary64) : Prop where
  /-- The text is a numeral up to its end, and the number is kept as what the numeral stands for. -/
  reads : ∃ n, Numeral.scan (x.fixed constantPlaces).toList = some (n, []) ∧
    x.asPrinted = n.value.plusZero
  isFinite : x.asPrinted.isFinite
  ne_negativeZero : x.asPrinted ≠ .finite true .zero
  text : x.asPrinted.fixed constantPlaces =
    if x.fixed constantPlaces = "-0.000000" then "0.000000" else x.fixed constantPlaces
  again : x.asPrinted.asPrinted = x.asPrinted
  eq_zero_iff : x.asPrinted = zero ↔
    x.fixed constantPlaces = "0.000000" ∨ x.fixed constantPlaces = "-0.000000"
  le : ∀ y : Binary64, y.isFinite → x.toRat ≤ y.toRat → x.asPrinted.toRat ≤ y.asPrinted.toRat

/-- Every finite number is kept with its text, but for the sign of a zero, and in its order. -/
theorem printsStably {x : Binary64} (h : x.isFinite) : x.PrintsStably := by
  obtain ⟨negative, m, rfl⟩ := exists_eq_finite h
  constructor
  case reads =>
    obtain ⟨n, hscan, hvalue⟩ := exists_numeral negative m
    refine ⟨n, hscan, ?_⟩
    rw [hvalue]
    exact asPrinted_eq_plusZero negative m
  case isFinite =>
    rw [isFinite_asPrinted]
    exact h
  case ne_negativeZero =>
    rw [asPrinted_eq_plusZero]
    exact plusZero_ne_negativeZero _
  case text => exact fixed_asPrinted negative m
  case again => exact asPrinted_asPrinted _
  case eq_zero_iff => exact asPrinted_eq_zero_iff.trans fixed_eq_zero_iff.symm
  case le =>
    intro y hy hle
    obtain ⟨negative', m', rfl⟩ := exists_eq_finite hy
    rw [toRat_le_toRat] at hle ⊢
    exact signedUnits_asPrinted_le hle

/-- A number that prints as a zero with a sign is kept without it, and still below a third. -/
theorem printsStably_tiny :
    (nearest true 1 10000000).isFinite ∧ (nearest true 1 10000000).fixed constantPlaces =
      "-0.000000" ∧ (nearest true 1 10000000).asPrinted = zero ∧
      (nearest true 1 10000000).asPrinted.toRat ≤ (nearest false 1 3).asPrinted.toRat := by
  have hfinite : (nearest true 1 10000000).isFinite := by decide +kernel
  have htext : (nearest true 1 10000000).fixed constantPlaces = "-0.000000" := by decide +kernel
  have hle : (nearest true 1 10000000).toRat ≤ (nearest false 1 3).toRat :=
    toRat_le_toRat.mpr (by decide +kernel)
  have hstable := printsStably hfinite
  refine ⟨hfinite, htext, hstable.eq_zero_iff.mpr (.inr htext), ?_⟩
  exact hstable.le _ (by decide +kernel) hle

end Binary64

end DerivativeHeaders
