import DerivativeHeaders.Number.Printed
import DerivativeHeaders.Proofs.Number.Numeral

/-! # Written numbers read back

Positional and exponential texts of a decimal spell numerals of its value. So does the text at a
fixed count of places, for the steps it counts.
-/
namespace DerivativeHeaders

namespace Decimal

theorem Same.refl (d : Decimal) : d.Same d := rfl

end Decimal

/-- The text is a numeral with the given sign and the value of the decimal. -/
def Spells (cs : List Char) (negative : Bool) (d : Decimal) : Prop :=
  ∃ n : Numeral, n.WellFormed ∧ cs = n.spelling ∧ n.negative = negative ∧ n.decimal.Same d

theorem Spells.scan {cs : List Char} {negative : Bool} {d : Decimal} (h : Spells cs negative d) :
    ∃ n, Numeral.scan cs = some (n, []) ∧ n.value = d.nearest negative := by
  obtain ⟨n, hwf, rfl, rfl, hsame⟩ := h
  exact ⟨n, Numeral.scan_spelling hwf, Decimal.nearest_congr hsame n.negative⟩

namespace Numeral

def plain (negative : Bool) (whole fraction : List Char) : Numeral :=
  ⟨negative, whole, fraction, none⟩

theorem wellFormed_plain {negative : Bool} {whole fraction : List Char} (hwhole : AllDigits whole)
    (hne : whole ≠ []) (hfraction : AllDigits fraction) :
    (plain negative whole fraction).WellFormed :=
  ⟨hwhole, hne, hfraction, nofun⟩

theorem spelling_plain (negative : Bool) (whole fraction : List Char) :
    (plain negative whole fraction).spelling =
      NumberStyle.signText negative ++ (whole ++ fractionSpelling fraction) := by
  rw [spelling_eq]
  simp only [plain, exponentSpelling, Option.map_none, Option.getD_none, List.append_nil]
  rfl

theorem decimal_plain (negative : Bool) (whole fraction : List Char) :
    (plain negative whole fraction).decimal =
      ⟨digitsValue (whole ++ fraction), -fraction.length⟩ := by
  simp only [plain, decimal, Option.map_none, Option.getD_none, Int.zero_sub]

end Numeral

namespace NumberStyle

theorem digits_ne_nil (d : Decimal) : d.digits ≠ [] := Nat.toDigits_ne_nil

theorem allDigits_digits (d : Decimal) : AllDigits d.digits := allDigits_toDigits _

theorem length_digits_pos (d : Decimal) : 0 < d.digits.length :=
  List.length_pos_iff.mpr (digits_ne_nil d)

/-- A whole number: its digits, as many zeros as the exponent says, perhaps a point and a zero. -/
theorem spells_whole (d : Decimal) (negative mark : Bool) (h : 0 ≤ d.exponent) :
    Spells (signText negative ++ (d.digits ++ List.replicate d.exponent.toNat '0' ++
      (if mark then ['.', '0'] else []))) negative d := by
  obtain ⟨k, hk⟩ := Int.eq_ofNat_of_zero_le h
  have hwhole := (allDigits_digits d).append (allDigits_zeros k)
  have hne : d.digits ++ List.replicate k '0' ≠ [] := by simp [digits_ne_nil]
  have hvalue : digitsValue (d.digits ++ List.replicate k '0') = d.mantissa * tenPow k := by
    rw [digitsValue_append, digitsValue_zeros, Decimal.digits, digitsValue_toDigits,
      List.length_replicate, Nat.add_zero]
  have hd : d = ⟨d.mantissa, d.exponent⟩ := rfl
  rw [hk, Int.toNat_natCast]
  cases mark with
  | false =>
    refine ⟨.plain negative (d.digits ++ List.replicate k '0') [],
      Numeral.wellFormed_plain hwhole hne nofun, ?_, rfl, ?_⟩
    · rw [Numeral.spelling_plain]
      rfl
    · rw [Numeral.decimal_plain, List.append_nil, hvalue, hd, hk]
      simpa using Decimal.same_scale d.mantissa k 0
  | true =>
    refine ⟨.plain negative (d.digits ++ List.replicate k '0') ['0'],
      Numeral.wellFormed_plain hwhole hne (allDigits_zeros 1), ?_, rfl, ?_⟩
    · rw [Numeral.spelling_plain]
      rfl
    · have hten : digitsValue (d.digits ++ List.replicate k '0' ++ ['0']) =
          d.mantissa * tenPow (k + 1) := by
        rw [digitsValue_append, hvalue, tenPow_add, Nat.mul_assoc]
        rfl
      rw [Numeral.decimal_plain, hten, hd, hk]
      have hexp : (-(1 : Int) + (k + 1 : Nat) : Int) = k := by omega
      have := Decimal.same_scale d.mantissa (k + 1) (-1)
      rwa [hexp] at this

/-- A point among the digits of the mantissa. -/
theorem spells_pointed (d : Decimal) (negative : Bool) {place : Nat} (hpos : 0 < place)
    (hexp : d.exponent = (place : Int) - d.digits.length) (hlt : place < d.digits.length) :
    Spells (signText negative ++ (d.digits.take place ++ '.' :: d.digits.drop place))
      negative d := by
  have hsplit := List.take_append_drop place d.digits
  have htake : AllDigits (d.digits.take place) :=
    fun c hc => allDigits_digits d c (List.mem_of_mem_take hc)
  have hdrop : AllDigits (d.digits.drop place) :=
    fun c hc => allDigits_digits d c (List.mem_of_mem_drop hc)
  have htne : d.digits.take place ≠ [] := by
    rw [← List.length_pos_iff, List.length_take]
    omega
  have hdne : d.digits.drop place ≠ [] := by
    rw [← List.length_pos_iff, List.length_drop]
    omega
  refine ⟨.plain negative (d.digits.take place) (d.digits.drop place),
    Numeral.wellFormed_plain htake htne hdrop, ?_, rfl, ?_⟩
  · rw [Numeral.spelling_plain, Numeral.fractionSpelling, if_neg hdne]
  · rw [Numeral.decimal_plain, hsplit, Decimal.digits, digitsValue_toDigits, ← Decimal.digits]
    have hlen : -((d.digits.drop place).length : Int) = d.exponent := by
      rw [List.length_drop]
      omega
    rw [hlen]
    exact Decimal.Same.refl d

/-- A number below one: zeros between the point and the digits. -/
theorem spells_leadingZeros (d : Decimal) (negative : Bool) {zeros : Nat}
    (hexp : d.exponent = -((zeros : Int) + d.digits.length)) :
    Spells (signText negative ++ ('0' :: '.' :: List.replicate zeros '0' ++ d.digits))
      negative d := by
  have hfraction := (allDigits_zeros zeros).append (allDigits_digits d)
  have hne : List.replicate zeros '0' ++ d.digits ≠ [] := by simp [digits_ne_nil]
  refine ⟨.plain negative ['0'] (List.replicate zeros '0' ++ d.digits),
    Numeral.wellFormed_plain (allDigits_zeros 1) nofun hfraction, ?_, rfl, ?_⟩
  · rw [Numeral.spelling_plain, Numeral.fractionSpelling, if_neg hne]
    rfl
  · have hvalue : digitsValue (['0'] ++ (List.replicate zeros '0' ++ d.digits)) = d.mantissa := by
      rw [← List.append_assoc, digitsValue_append, Decimal.digits, digitsValue_toDigits]
      have hzeros : digitsValue (['0'] ++ List.replicate zeros '0') = 0 :=
        digitsValue_zeros (zeros + 1)
      rw [hzeros, Nat.zero_mul, Nat.zero_add]
    have hlen : -((List.replicate zeros '0' ++ d.digits).length : Int) = d.exponent := by
      rw [List.length_append, List.length_replicate, hexp]
      omega
    rw [Numeral.decimal_plain, hvalue, hlen]
    exact Decimal.Same.refl d

theorem spells_positionalText (style : NumberStyle) (negative : Bool) (d : Decimal) :
    Spells (signText negative ++ style.positionalText d) negative d := by
  have hlen := length_digits_pos d
  have hfirst : d.leadingExponent = d.exponent + d.digits.length - 1 := rfl
  simp only [positionalText]
  split
  · rename_i hexp
    exact spells_whole d negative style.markWhole hexp
  · rename_i hexp
    split
    · rename_i hlead
      obtain ⟨e, he⟩ := Int.eq_ofNat_of_zero_le hlead
      rw [he, Int.toNat_natCast]
      exact spells_pointed d negative (Nat.succ_pos e) (by omega) (by omega)
    · rename_i hlead
      obtain ⟨zeros, hzeros⟩ := Int.eq_ofNat_of_zero_le (show 0 ≤ -d.leadingExponent - 1 by omega)
      rw [hzeros, Int.toNat_natCast]
      exact spells_leadingZeros d negative (by omega)

def exponentSign (style : NumberStyle) (e : Int) : Option Sign :=
  if e < 0 then some .minus else if style.plusSign then some .plus else none

theorem exponentSign_text (style : NumberStyle) (e : Int) :
    (if e < 0 then ['-'] else if style.plusSign then ['+'] else []) =
      ((exponentSign style e).map Sign.char).toList := by
  simp only [exponentSign]
  split
  · rfl
  · split <;> rfl

theorem exponentPart_value (style : NumberStyle) (e : Int) :
    ExponentPart.value ⟨'e', exponentSign style e, Nat.toDigits 10 e.natAbs⟩ = e := by
  simp only [ExponentPart.value, digitsValue_toDigits, exponentSign]
  split
  · rename_i hneg
    rw [if_pos rfl]
    omega
  · rw [if_neg (by split <;> nofun)]
    omega

/-- One digit before the point, the others behind it, and the exponent of the first digit. -/
theorem spells_exponentText (style : NumberStyle) (negative : Bool) (d : Decimal) :
    Spells (signText negative ++ style.exponentText d) negative d := by
  obtain ⟨first, rest, hdigits⟩ := List.exists_cons_of_ne_nil (digits_ne_nil d)
  have hall := allDigits_digits d
  rw [hdigits] at hall
  have hfirst : AllDigits [first] := fun c hc => hall c (by simp_all)
  have hrest : AllDigits rest := fun c hc => hall c (List.mem_cons_of_mem _ hc)
  have hmantissa : digitsValue (first :: rest) = d.mantissa := by
    rw [← hdigits, Decimal.digits, digitsValue_toDigits]
  have hexponent : ∀ x ∈ some (ExponentPart.mk 'e' (exponentSign style d.leadingExponent)
      (Nat.toDigits 10 d.leadingExponent.natAbs)), x.WellFormed := by
    intro x hx
    cases hx
    exact ⟨.inl rfl, allDigits_toDigits _, Nat.toDigits_ne_nil⟩
  refine ⟨⟨negative, [first], rest, some ⟨'e', exponentSign style d.leadingExponent,
    Nat.toDigits 10 d.leadingExponent.natAbs⟩⟩, ⟨hfirst, nofun, hrest, hexponent⟩, ?_, rfl, ?_⟩
  · rw [Numeral.spelling_eq]
    simp only [exponentText, hdigits, exponentSign_text, Numeral.exponentSpelling, Option.map_some,
      Option.getD_some, ExponentPart.spelling, signText, List.append_assoc, List.cons_append,
      List.nil_append]
    cases rest <;> rfl
  · have hexp : d.leadingExponent - rest.length = d.exponent := by
      simp only [Decimal.leadingExponent, hdigits, List.length_cons]
      omega
    simp only [Numeral.decimal, List.singleton_append, hmantissa, Option.map_some, Option.getD_some,
      exponentPart_value, hexp]
    exact Decimal.Same.refl d

theorem spells_decimalText (style : NumberStyle) (negative : Bool) (d : Decimal) :
    Spells (signText negative ++ style.decimalText d) negative d := by
  simp only [decimalText]
  split
  · exact spells_positionalText style negative d
  · exact spells_exponentText style negative d

/-- A finite number is written as a numeral of its shortest decimal, in every style. -/
theorem spells_text (style : NumberStyle) (negative : Bool) (m : Magnitude) :
    Spells (style.text (.finite negative m)).toList negative (m.shortest style.tie) := by
  rw [text, String.toList_ofList]
  exact spells_decimalText style negative _

end NumberStyle

theorem length_toDigits_mod_tenPow (steps : Nat) {places : Nat} (h : 0 < places) :
    (Nat.toDigits 10 (steps % tenPow places)).length ≤ places :=
  (Nat.length_toDigits_le_iff (by decide) h).mpr (Nat.mod_lt _ (tenPow_pos places))

theorem spells_fixedText {places : Nat} (h : 0 < places) (negative : Bool) (steps : Nat) :
    Spells (NumberStyle.signText negative ++ fixedText places steps) negative ⟨steps, -places⟩ := by
  have hlen := length_toDigits_mod_tenPow steps h
  simp only [fixedText]
  generalize hfraction : Nat.toDigits 10 (steps % tenPow places) = fraction at hlen
  have hdigits : AllDigits fraction := hfraction ▸ allDigits_toDigits _
  have hpad := (allDigits_zeros (places - fraction.length)).append hdigits
  have hne : List.replicate (places - fraction.length) '0' ++ fraction ≠ [] := by
    rw [← hfraction]
    simp [Nat.toDigits_ne_nil]
  have hlength : (List.replicate (places - fraction.length) '0' ++ fraction).length = places := by
    rw [List.length_append, List.length_replicate]
    omega
  refine ⟨.plain negative (Nat.toDigits 10 (steps / tenPow places))
    (List.replicate (places - fraction.length) '0' ++ fraction),
    Numeral.wellFormed_plain (allDigits_toDigits _) Nat.toDigits_ne_nil hpad, ?_, rfl, ?_⟩
  · rw [Numeral.spelling_plain, Numeral.fractionSpelling, if_neg hne]
  · have hvalue : digitsValue (Nat.toDigits 10 (steps / tenPow places) ++
        (List.replicate (places - fraction.length) '0' ++ fraction)) = steps := by
      rw [digitsValue_append, hlength, digitsValue_append, digitsValue_zeros,
        digitsValue_toDigits, ← hfraction, digitsValue_toDigits, Nat.zero_mul, Nat.zero_add]
      exact Nat.div_add_mod' steps (tenPow places)
    rw [Numeral.decimal_plain, hvalue, hlength]
    exact Decimal.Same.refl _

theorem Binary64.spells_fixed {places : Nat} (h : 0 < places) (negative : Bool) (m : Magnitude) :
    Spells ((finite negative m).fixed places).toList negative ⟨m.scaled places, -places⟩ := by
  rw [fixed, String.toList_ofList]
  exact spells_fixedText h negative _

end DerivativeHeaders
