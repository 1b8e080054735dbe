import DerivativeHeaders.Proofs.Number.Numeral
import DerivativeHeaders.Token.Scan

/-! # Scanning composed texts

No lexeme goes on over a character that breaks, so a text is scanned in the parts between such
characters. `Lexes` says that a text consists of tokens and gaps alone.
-/
namespace DerivativeHeaders

namespace Lexeme

def isBreak (c : Char) : Bool :=
  !(Identifier.isContinuation c || c == '.' || c == '+' || c == '-' || c == '*' || c == '/')

/-- A text that no lexeme before it goes on with. -/
def Breaks (cs : List Char) : Prop := ∀ c ∈ cs.head?, isBreak c

theorem breaks_cons {c : Char} {cs : List Char} (h : isBreak c) : Breaks (c :: cs) := by
  intro d hd
  cases hd
  exact h

theorem not_of_isBreak {c : Char} (h : isBreak c) :
    Identifier.isContinuation c = false ∧ c ≠ '.' ∧ c ≠ '+' ∧ c ≠ '-' ∧ c ≠ '*' ∧ c ≠ '/' := by
  simpa [isBreak, and_assoc] using h

theorem isContinuation_of_isDigit {c : Char} (h : c.isDigit) : Identifier.isContinuation c :=
  Bool.or_eq_true_iff.mpr (.inl (Bool.or_eq_true_iff.mpr (.inr h)))

theorem not_isDigit_of_isBreak {c : Char} (h : isBreak c) : c.isDigit = false := by
  have hcont := (not_of_isBreak h).1
  cases hdigit : c.isDigit with
  | false => rfl
  | true => rw [isContinuation_of_isDigit hdigit] at hcont; cases hcont

theorem noDigitAhead_of_breaks {cs : List Char} (h : Breaks cs) : NoDigitAhead cs :=
  fun c hc => not_isDigit_of_isBreak (h c hc)

theorem takeWhile_append_of_ahead {p : Char → Bool} (cs : List Char) {rest : List Char}
    (h : ∀ c ∈ rest.head?, p c = false) : (cs ++ rest).takeWhile p = cs.takeWhile p := by
  induction cs with
  | nil =>
    cases rest with
    | nil => rfl
    | cons c rest => simp [h c rfl]
  | cons c cs ih => simp only [List.cons_append, List.takeWhile_cons, ih]

theorem dropWhile_append_of_ahead {p : Char → Bool} (cs : List Char) {rest : List Char}
    (h : ∀ c ∈ rest.head?, p c = false) : (cs ++ rest).dropWhile p = cs.dropWhile p ++ rest := by
  induction cs with
  | nil =>
    cases rest with
    | nil => rfl
    | cons c rest => simp [h c rfl]
  | cons c cs ih =>
    simp only [List.cons_append, List.dropWhile_cons, ih]
    split <;> rfl

section Numerals
variable {rest : List Char}

theorem scanMinus_append_breaks (cs : List Char) (h : Breaks rest) :
    Numeral.scanMinus (cs ++ rest) =
      ((Numeral.scanMinus cs).1, (Numeral.scanMinus cs).2 ++ rest) := by
  cases cs with
  | nil =>
    cases rest with
    | nil => rfl
    | cons c cs =>
      have hminus := (not_of_isBreak (h c rfl)).2.2.2.1
      rw [List.nil_append]
      unfold Numeral.scanMinus
      split
      · rename_i heq
        exact absurd (List.cons.inj heq).1 hminus
      · rfl
  | cons c cs =>
    by_cases hminus : c = '-'
    · subst hminus
      rfl
    · simp [Numeral.scanMinus, hminus]

theorem scanSign_append_breaks (cs : List Char) (h : Breaks rest) :
    Numeral.scanSign (cs ++ rest) = ((Numeral.scanSign cs).1, (Numeral.scanSign cs).2 ++ rest) := by
  cases cs with
  | nil =>
    cases rest with
    | nil => rfl
    | cons c cs =>
      obtain ⟨-, -, hplus, hminus, -⟩ := not_of_isBreak (h c rfl)
      simp [Numeral.scanSign, hplus, hminus]
  | cons c cs =>
    by_cases hminus : c = '-'
    · subst hminus
      rfl
    · by_cases hplus : c = '+'
      · subst hplus
        rfl
      · simp [Numeral.scanSign, hminus, hplus]

theorem scanExponent_append_breaks (cs : List Char) (h : Breaks rest) :
    Numeral.scanExponent (cs ++ rest) =
      ((Numeral.scanExponent cs).1, (Numeral.scanExponent cs).2 ++ rest) := by
  have hdigits := noDigitAhead_of_breaks h
  cases cs with
  | nil =>
    cases rest with
    | nil => rfl
    | cons c cs =>
      have hcont := (not_of_isBreak (h c rfl)).1
      have he : ¬ (c = 'e' ∨ c = 'E') := by
        rintro (rfl | rfl) <;> exact absurd hcont (by decide)
      simp [Numeral.scanExponent, he]
  | cons c cs =>
    simp only [List.cons_append, Numeral.scanExponent, scanSign_append_breaks cs h,
      takeWhile_append_of_ahead _ hdigits, dropWhile_append_of_ahead _ hdigits]
    split
    · split <;> rfl
    · rfl

theorem scanFraction_append_breaks (cs : List Char) (h : Breaks rest) :
    Numeral.scanFraction (cs ++ rest) =
      ((Numeral.scanFraction cs).1, (Numeral.scanFraction cs).2 ++ rest) := by
  have hdigits := noDigitAhead_of_breaks h
  cases cs with
  | nil =>
    cases rest with
    | nil => rfl
    | cons c cs =>
      have hpoint := (not_of_isBreak (h c rfl)).2.1
      simp [Numeral.scanFraction, hpoint]
  | cons c cs =>
    by_cases hpoint : c = '.'
    · subst hpoint
      simp only [List.cons_append, Numeral.scanFraction, takeWhile_append_of_ahead _ hdigits,
        dropWhile_append_of_ahead _ hdigits]
      split <;> rfl
    · simp [Numeral.scanFraction, hpoint]

/-- What breaks does not change the numeral in front of it. -/
theorem scan_append_breaks (cs : List Char) (h : Breaks rest) :
    Numeral.scan (cs ++ rest) = (Numeral.scan cs).map fun x => (x.1, x.2 ++ rest) := by
  have hdigits := noDigitAhead_of_breaks h
  simp only [Numeral.scan, scanMinus_append_breaks cs h, takeWhile_append_of_ahead _ hdigits,
    dropWhile_append_of_ahead _ hdigits, scanFraction_append_breaks _ h,
    scanExponent_append_breaks _ h]
  split <;> rfl

end Numerals

theorem nextNumber_append (c : Char) (cs : List Char) {rest : List Char} (h : Breaks rest) :
    nextNumber c (cs ++ rest) = nextNumber c cs := by
  have hscan := scan_append_breaks (c :: cs) h
  rw [List.cons_append] at hscan
  simp only [nextNumber, hscan]
  cases Numeral.scan (c :: cs) with
  | none => rfl
  | some x =>
    simp only [Option.map_some, List.length_append, Prod.mk.injEq, true_and]
    omega

theorem nextMark_append {second : Char} (long : Token) (short : Lexeme) (cs : List Char)
    {rest : List Char}
    (hsecond : second = '*' ∨ second = '/') (h : Breaks rest) :
    nextMark second long short (cs ++ rest) = nextMark second long short cs := by
  cases cs with
  | nil =>
    cases rest with
    | nil => rfl
    | cons d rest =>
      obtain ⟨-, -, -, -, hstar, hslash⟩ := not_of_isBreak (h d rfl)
      have hne : d ≠ second := by rcases hsecond with rfl | rfl <;> assumption
      simp only [List.nil_append, nextMark, if_neg hne]
  | cons d cs => rfl

/-- What breaks does not change the lexeme in front of it. -/
theorem next_append (c : Char) (cs : List Char) {rest : List Char} (h : Breaks rest) :
    next c (cs ++ rest) = next c cs := by
  have hword : (cs ++ rest).takeWhile Identifier.isContinuation =
      cs.takeWhile Identifier.isContinuation :=
    takeWhile_append_of_ahead cs fun d hd => (not_of_isBreak (h d hd)).1
  simp only [next, hword, nextNumber_append c cs h, nextMark_append _ _ cs (.inl rfl) h,
    nextMark_append _ _ cs (.inr rfl) h]

theorem nextMark_snd_le (second : Char) (long : Token) (short : Lexeme) (cs : List Char) :
    (nextMark second long short cs).2 ≤ cs.length := by
  cases cs with
  | nil => exact Nat.le_refl 0
  | cons d cs =>
    rw [nextMark]
    split <;> simp

theorem next_snd_le (c : Char) (cs : List Char) : (next c cs).2 ≤ cs.length := by
  simp only [next]
  split
  · exact (List.takeWhile_sublist _).length_le
  · split
    · simp only [nextNumber]
      split
      · exact Nat.sub_le _ _
      · exact Nat.zero_le _
    · split <;> first | exact nextMark_snd_le .. | exact Nat.zero_le _

theorem byteSize_append (a b : List Char) :
    Text.byteSize (a ++ b) = Text.byteSize a + Text.byteSize b := by
  induction a with
  | nil => exact (Nat.zero_add _).symm
  | cons c a ih =>
    simp only [Text.byteSize, List.cons_append, List.foldr_cons] at ih ⊢
    rw [ih, Nat.add_assoc]

theorem byteSize_cons (c : Char) (cs : List Char) :
    Text.byteSize (c :: cs) = c.utf8Size + Text.byteSize cs := rfl

/-- A text is scanned in two parts where the second one breaks. -/
theorem scanFrom_append (offset skip : Nat) {a rest : List Char} (hskip : skip ≤ a.length)
    (h : Breaks rest) :
    scanFrom offset skip (a ++ rest) =
      scanFrom offset skip a ++ scanFrom (offset + Text.byteSize a) 0 rest := by
  induction a generalizing offset skip with
  | nil =>
    rw [Nat.le_zero.mp hskip]
    rfl
  | cons c cs ih =>
    rw [byteSize_cons, ← Nat.add_assoc, List.cons_append]
    cases skip with
    | succ skip => exact ih (offset + c.utf8Size) skip (Nat.le_of_succ_le_succ hskip)
    | zero =>
      simp only [scanFrom, next_append c cs h]
      split
      · exact ih _ 0 (Nat.zero_le _)
      · have hmore := next_snd_le c cs
        rw [List.take_append_of_le_length hmore, ih _ _ hmore, List.cons_append]

/-- The values of the lexemes do not depend on where the text stands. -/
theorem map_value_scanFrom (offset offset' skip : Nat) (cs : List Char) :
    (scanFrom offset skip cs).map Located.value = (scanFrom offset' skip cs).map Located.value := by
  induction cs generalizing offset offset' skip with
  | nil => rfl
  | cons c cs ih =>
    cases skip with
    | succ skip => exact ih _ _ skip
    | zero =>
      simp only [scanFrom]
      split
      · exact ih _ _ 0
      · rw [List.map_cons, List.map_cons, ih _ (offset' + c.utf8Size)]

theorem scanFrom_skip (offset : Nat) (skip : Nat) {cs : List Char} (h : skip ≤ cs.length) :
    scanFrom offset skip cs =
      scanFrom (offset + Text.byteSize (cs.take skip)) 0 (cs.drop skip) := by
  induction skip generalizing offset cs with
  | zero => rfl
  | succ skip ih =>
    cases cs with
    | nil => rfl
    | cons c cs =>
      rw [List.take_succ_cons, List.drop_succ_cons, byteSize_cons, ← Nat.add_assoc]
      exact ih (offset + c.utf8Size) (Nat.le_of_succ_le_succ h)

end Lexeme

end DerivativeHeaders
