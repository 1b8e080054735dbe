import Mathlib.Tactic.Ring
import DerivativeHeaders.Number.Numeral
import DerivativeHeaders.Number.Text
import DerivativeHeaders.Proofs.Number.Decimal

/-! # Written numbers are numerals

A well-formed numeral is read back from its spelling. The two ways to write a number, at a fixed
count of places and with the fewest digits, spell numerals, whose values are the printed steps
and the number itself.
-/
namespace DerivativeHeaders

def AllDigits (cs : List Char) : Prop := ∀ c ∈ cs, c.isDigit

theorem allDigits_toDigits (n : Nat) : AllDigits (Nat.toDigits 10 n) :=
  fun _ hc => Nat.isDigit_of_mem_toDigits (by decide) (by decide) hc

theorem allDigits_zeros (n : Nat) : AllDigits (List.replicate n '0') := by
  intro c hc
  rw [List.eq_of_mem_replicate hc]
  decide

theorem AllDigits.append {a b : List Char} (ha : AllDigits a) (hb : AllDigits b) :
    AllDigits (a ++ b) :=
  fun c hc => (List.mem_append.mp hc).elim (ha c) (hb c)

def NoDigitAhead (cs : List Char) : Prop := ∀ c ∈ cs.head?, c.isDigit = false

theorem noDigitAhead_nil : NoDigitAhead [] := nofun

theorem AllDigits.takeWhile_append {digits rest : List Char} (h : AllDigits digits)
    (hrest : NoDigitAhead rest) :
    (digits ++ rest).takeWhile Char.isDigit = digits := by
  rw [List.takeWhile_append_of_pos h]
  cases rest with
  | nil => simp
  | cons c cs => simp [hrest c rfl]

theorem AllDigits.dropWhile_append {digits rest : List Char} (h : AllDigits digits)
    (hrest : NoDigitAhead rest) :
    (digits ++ rest).dropWhile Char.isDigit = rest := by
  rw [List.dropWhile_append_of_pos h]
  cases rest with
  | nil => rfl
  | cons c cs => simp [hrest c rfl]

theorem digitsValue_append (a b : List Char) :
    digitsValue (a ++ b) = digitsValue a * tenPow b.length + digitsValue b := by
  simp only [digitsValue, Nat.ofDigitChars_append, tenPow]
  rw [Nat.ofDigitChars_eq_ofDigitChars_zero, Nat.mul_comm]
  rfl

theorem digitsValue_toDigits (n : Nat) : digitsValue (Nat.toDigits 10 n) = n :=
  Nat.ofDigitChars_ten_toDigits

theorem digitsValue_zeros (n : Nat) : digitsValue (List.replicate n '0') = 0 := by
  simp [digitsValue]

namespace ExponentPart

structure WellFormed (x : ExponentPart) : Prop where
  mark : x.mark = 'e' ∨ x.mark = 'E'
  digits : AllDigits x.digits
  digits_ne_nil : x.digits ≠ []

end ExponentPart

namespace Numeral

/-- Digits stand in all three places, and in the whole part and an exponent at least one. -/
structure WellFormed (n : Numeral) : Prop where
  whole : AllDigits n.whole
  whole_ne_nil : n.whole ≠ []
  fraction : AllDigits n.fraction
  exponent : ∀ x ∈ n.exponent, x.WellFormed

theorem isDigit_ne {c : Char} (h : c.isDigit) : c ≠ '-' ∧ c ≠ '+' ∧ c ≠ '.' := by
  refine ⟨?_, ?_, ?_⟩ <;> rintro rfl <;> exact absurd h (by decide)

theorem scanSign_cons {c : Char} (sign : Option Sign) (h : c.isDigit) (cs : List Char) :
    scanSign ((sign.map Sign.char).toList ++ c :: cs) = (sign, c :: cs) := by
  match sign with
  | some .plus => rfl
  | some .minus => rfl
  | none =>
    obtain ⟨hminus, hplus, -⟩ := isDigit_ne h
    simp only [Option.map_none, Option.toList_none, List.nil_append]
    unfold scanSign
    split
    · rename_i heq
      exact absurd (List.cons.inj heq).1 hplus
    · rename_i heq
      exact absurd (List.cons.inj heq).1 hminus
    · rfl

theorem scanSign_append {digits : List Char} (sign : Option Sign) (h : AllDigits digits) :
    scanSign ((sign.map Sign.char).toList ++ digits) = (sign, digits) := by
  cases digits with
  | nil => match sign with
    | some .plus | some .minus | none => rfl
  | cons c cs => exact scanSign_cons sign (h c List.mem_cons_self) cs

theorem scanMinus_append {digits rest : List Char} (negative : Bool) (h : AllDigits digits)
    (hne : digits ≠ []) :
    scanMinus ((if negative then ['-'] else []) ++ (digits ++ rest)) =
      (negative, digits ++ rest) := by
  cases negative with
  | true => rfl
  | false =>
    obtain ⟨c, cs, rfl⟩ := List.exists_cons_of_ne_nil hne
    have hminus := (isDigit_ne (h c List.mem_cons_self)).1
    simp only [Bool.false_eq_true, ↓reduceIte, List.nil_append, List.cons_append]
    unfold scanMinus
    split
    · rename_i heq
      exact absurd (List.cons.inj heq).1 hminus
    · rfl

def exponentSpelling (x : Option ExponentPart) : List Char := (x.map ExponentPart.spelling).getD []

theorem scanExponent_spelling {exponent : Option ExponentPart} (h : ∀ x ∈ exponent, x.WellFormed) :
    scanExponent (exponentSpelling exponent) = (exponent, []) := by
  cases exponent with
  | none => rfl
  | some x =>
    obtain ⟨hmark, hdigits, hne⟩ := h x rfl
    have htake := hdigits.takeWhile_append noDigitAhead_nil
    have hdrop := hdigits.dropWhile_append noDigitAhead_nil
    rw [List.append_nil] at htake hdrop
    simp only [exponentSpelling, Option.map_some, Option.getD_some, ExponentPart.spelling,
      List.cons_append, scanExponent, hmark, ↓reduceIte, scanSign_append x.sign hdigits,
      htake, hdrop, hne]

theorem noDigitAhead_exponentSpelling {exponent : Option ExponentPart}
    (h : ∀ x ∈ exponent, x.WellFormed) :
    NoDigitAhead (exponentSpelling exponent) := by
  cases exponent with
  | none => simp [NoDigitAhead, exponentSpelling]
  | some x =>
    intro c hc
    simp only [exponentSpelling, Option.map_some, Option.getD_some, ExponentPart.spelling,
      List.cons_append, List.head?_cons, Option.mem_some_iff] at hc
    subst hc
    rcases (h x rfl).mark with hmark | hmark <;> rw [hmark] <;> decide

def fractionSpelling (fraction : List Char) : List Char :=
  if fraction = [] then [] else '.' :: fraction

theorem scanFraction_append {fraction rest : List Char} (h : AllDigits fraction)
    (hrest : NoDigitAhead rest)
    (hpoint : '.' ∉ rest.head?) :
    scanFraction (fractionSpelling fraction ++ rest) = (fraction, rest) := by
  simp only [fractionSpelling]
  split
  · rename_i hnil
    subst hnil
    unfold scanFraction
    split
    · rename_i heq
      rw [List.nil_append] at heq
      exact absurd (by rw [heq]; rfl) hpoint
    · rfl
  · rename_i hne
    simp only [List.cons_append, scanFraction, h.takeWhile_append hrest, h.dropWhile_append hrest,
      hne, ↓reduceIte]

theorem spelling_eq (n : Numeral) :
    n.spelling = (if n.negative then ['-'] else []) ++
      (n.whole ++ (fractionSpelling n.fraction ++ exponentSpelling n.exponent)) := by
  cases h : n.exponent <;>
    simp only [spelling, fractionSpelling, exponentSpelling, h, Option.map_some, Option.map_none,
      Option.getD_some, Option.getD_none, List.append_assoc]

theorem scan_spelling {n : Numeral} (h : n.WellFormed) : scan n.spelling = some (n, []) := by
  obtain ⟨hwhole, hne, hfraction, hexponent⟩ := h
  have htail : NoDigitAhead (fractionSpelling n.fraction ++ exponentSpelling n.exponent) := by
    simp only [fractionSpelling]
    split
    · exact noDigitAhead_exponentSpelling hexponent
    · intro c hc
      cases hc
      rfl
  have hpoint : '.' ∉ (exponentSpelling n.exponent).head? := by
    cases hx : n.exponent with
    | none => simp [exponentSpelling]
    | some x =>
      rcases (hexponent x hx).mark with hmark | hmark <;>
        simp [exponentSpelling, ExponentPart.spelling, hmark]
  rw [spelling_eq, scan, scanMinus_append n.negative hwhole hne]
  simp only [hwhole.takeWhile_append htail, hwhole.dropWhile_append htail, hne, ↓reduceIte,
    scanFraction_append hfraction (noDigitAhead_exponentSpelling hexponent) hpoint,
    scanExponent_spelling hexponent]

end Numeral

end DerivativeHeaders
