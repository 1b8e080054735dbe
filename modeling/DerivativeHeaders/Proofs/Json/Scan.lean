import DerivativeHeaders.Json.Token
import DerivativeHeaders.Proofs.Outcome
import DerivativeHeaders.Proofs.Token.Places

/-! # Tokens of JSON by themselves

A token that is read in full depends on its own characters, and a number besides on whether the next
character goes on with it. Neither what follows nor the place of a token matters.
-/
namespace DerivativeHeaders.Json

open Outcome

section Texts

variable {offset skip n : Nat} {c char : Char} {cs chars : List Char}

theorem hexEscape_eq_ok_iff : hexEscape offset cs = .ok n ↔
    ∃ a b c d rest, cs = a :: b :: c :: d :: rest ∧ hexQuad? a b c d = some n := by
  constructor
  · intro h
    dsimp only [hexEscape] at h
    split at h
    · rename_i hread
      cases h
      split at hread
      · exact ⟨_, _, _, _, _, rfl, hread⟩
      · cases hread
    · split at h <;> cases h
  · rintro ⟨a, b, c, d, rest, rfl, hquad⟩
    simp only [hexEscape, hquad]

/-- The characters of an escape are read alike at another place and with another text after them. -/
theorem unicodeEscape_cut (h : unicodeEscape offset cs = .ok (char, n)) :
    ∃ front rest, cs = front ++ rest ∧ front.length = n ∧
      ∀ offset' rest', unicodeEscape offset' (front ++ rest') = .ok (char, n) := by
  obtain ⟨m, hm, h⟩ := bind_eq_ok.mp h
  obtain ⟨a, b, c, d, rest, rfl, hquad⟩ := hexEscape_eq_ok_iff.mp hm
  have hread (offset' : Nat) (rest' : List Char) :
      hexEscape offset' (a :: b :: c :: d :: rest') = .ok m :=
    hexEscape_eq_ok_iff.mpr ⟨a, b, c, d, rest', rfl, hquad⟩
  split at h
  · cases h
  · rename_i htrailing
    split at h
    · rename_i hleading
      rw [List.drop_succ_cons, List.drop_succ_cons, List.drop_succ_cons, List.drop_succ_cons,
        List.drop_zero] at h
      split at h
      · cases h
      · cases h
      · obtain ⟨m', hm', hpair⟩ := bind_eq_ok.mp h
        obtain ⟨a', b', c', d', more, rfl, hquad'⟩ := hexEscape_eq_ok_iff.mp hm'
        split at hpair
        · rename_i htrailing'
          obtain ⟨rfl, rfl⟩ := Prod.mk.inj (pure_eq_ok.mp hpair)
          refine ⟨[a, b, c, d, '\\', 'u', a', b', c', d'], more, rfl, rfl, fun offset' rest' => ?_⟩
          have hread' : hexEscape (offset' + 6) (a' :: b' :: c' :: d' :: rest') = .ok m' :=
            hexEscape_eq_ok_iff.mpr ⟨a', b', c', d', rest', rfl, hquad'⟩
          refine bind_eq_ok.mpr ⟨m, hread offset' _, ?_⟩
          rw [if_neg htrailing, if_pos hleading]
          exact bind_eq_ok.mpr ⟨m', hread', if_pos htrailing'⟩
        · cases hpair
      · cases h
      · cases h
    · rename_i hleading
      cases h
      refine ⟨[a, b, c, d], rest, rfl, rfl, fun offset' rest' => ?_⟩
      refine bind_eq_ok.mpr ⟨m, hread offset' _, ?_⟩
      rw [if_neg htrailing, if_neg hleading]
      rfl

/-- The characters that stand for one character of a text between quotes. -/
inductive Stands : List Char → Char → Prop
  | itself {c : Char} (hquote : c ≠ '"') (hslash : c ≠ '\\')
      (hcontrol : ¬ c.toNat < 0x20) : Stands [c] c
  | escape {e char : Char} (hunicode : e ≠ 'u') (hescape : simpleEscape? e = some char) :
      Stands ['\\', e] char
  | unicode {es : List Char} {char : Char}
      (hescape : ∀ offset rest, unicodeEscape offset (es ++ rest) = .ok (char, es.length)) :
      Stands ('\\' :: 'u' :: es) char

theorem scanText_stands {tail : List Char} (h : Stands (c :: tail) char) (offset : Nat)
    (rest : List Char) :
    scanText offset 0 (c :: (tail ++ rest)) =
      (fun x => (char :: x.1, x.2 + 1)) <$>
      scanText (offset + c.utf8Size) tail.length (tail ++ rest) := by
  rw [scanText.eq_def]
  cases h with
  | itself hquote hslash hcontrol =>
    dsimp only
    rw [if_neg hquote, if_neg hslash, if_neg hcontrol]
    rfl
  | @escape e char hunicode hescape =>
    dsimp only [List.cons_append, List.nil_append]
    rw [if_neg (by decide), if_pos rfl, if_neg hunicode, hescape]
    rfl
  | @unicode es char hescape =>
    dsimp only [List.cons_append]
    rw [if_neg (by decide), if_pos rfl, if_pos rfl, hescape]
    rfl

theorem exists_stands (h : scanText offset 0 (c :: cs) = .ok (chars, n)) (hquote : c ≠ '"') :
    ∃ tail rest char, cs = tail ++ rest ∧ Stands (c :: tail) char := by
  rw [scanText.eq_def] at h
  dsimp only at h
  rw [if_neg hquote] at h
  split at h
  · rename_i hslash
    subst hslash
    split at h
    · cases h
    · rename_i e es
      split at h
      · rename_i hunicode
        subst hunicode
        obtain ⟨⟨char, length⟩, hescape, -⟩ := bind_eq_ok.mp h
        obtain ⟨front, rest, rfl, rfl, hfront⟩ := unicodeEscape_cut hescape
        exact ⟨'u' :: front, rest, char, rfl, .unicode hfront⟩
      · rename_i hunicode
        split at h
        · rename_i char hescape
          exact ⟨[e], es, char, rfl, .escape hunicode hescape⟩
        · cases h
  · rename_i hslash
    split at h
    · cases h
    · rename_i hcontrol
      exact ⟨[], cs, c, rfl, .itself hquote hslash hcontrol⟩

/-- A text between quotes is read alike at another place and with another text after it. -/
theorem scanText_cut (h : scanText offset skip cs = .ok (chars, n)) :
    skip < n ∧ ∃ front rest, cs = front ++ rest ∧
      front.length = n ∧
      ∀ offset' rest', scanText offset' skip (front ++ rest') = .ok (chars, n) := by
  induction cs generalizing offset skip chars n with
  | nil => cases h
  | cons c cs ih =>
    cases skip with
    | succ skip =>
      rw [scanText] at h
      obtain ⟨⟨chars, n⟩, hscan, h⟩ := bind_eq_ok.mp h
      cases h
      obtain ⟨hn, front, rest, rfl, rfl, hfront⟩ := ih hscan
      refine ⟨Nat.succ_lt_succ hn, c :: front, rest, rfl, rfl, fun offset' rest' => ?_⟩
      rw [List.cons_append, scanText, hfront]
      rfl
    | zero =>
      by_cases hquote : c = '"'
      · subst hquote
        cases h
        exact ⟨Nat.one_pos, ['"'], cs, rfl, rfl, fun _ _ => rfl⟩
      · obtain ⟨tail, rest, char, rfl, hstands⟩ := exists_stands h hquote
        rw [scanText_stands hstands, map_eq_ok] at h
        obtain ⟨⟨chars, n⟩, hscan, h⟩ := h
        cases h
        obtain ⟨hn, front, rest', happend, rfl, hfront⟩ := ih hscan
        obtain ⟨more, rfl, rfl⟩ | ⟨more, rfl, rfl⟩ := List.append_eq_append_iff.mp happend
        · refine ⟨Nat.succ_pos _, c :: (tail ++ more), rest', by simp, rfl, fun offset' rest => ?_⟩
          rw [List.cons_append, List.append_assoc,
            scanText_stands hstands, ← List.append_assoc, hfront]
          rfl
        · rw [List.length_append] at hn
          omega

end Texts

section Words

theorem scanWord_eq_ok_iff {offset : Nat} {word cs : List Char} :
    scanWord offset word cs = .ok () ↔ word <+: cs := by
  induction word generalizing offset cs with
  | nil => exact iff_of_true rfl (List.nil_prefix ..)
  | cons e word ih =>
    cases cs with
    | nil => exact iff_of_false nofun (by simp)
    | cons c cs =>
      rw [scanWord, List.cons_prefix_cons]
      split
      · rename_i he
        rw [ih]
        exact (and_iff_right he).symm
      · rename_i he
        exact iff_of_false nofun fun h => he h.1

/-- The text breaks off inside of the token. -/
def Token.breaksOff : Token → Bool
  | broken _ | brokenText _ => true
  | _ => false

theorem wordToken_cut {offset n : Nat} {value : Json} {word cs : List Char} {t : Token}
    (h : wordToken offset value word cs = (t, n)) (ht : t.breaksOff = false) :
    ∃ front rest, cs = front ++ rest ∧
      front.length = n ∧
      ∀ offset' rest', wordToken offset' value word (front ++ rest') = (t, n) := by
  rw [wordToken] at h
  split at h
  · rename_i hword
    cases h
    obtain ⟨rest, rfl⟩ := scanWord_eq_ok_iff.mp hword
    refine ⟨word, rest, rfl, rfl, fun offset' rest' => ?_⟩
    rw [wordToken, scanWord_eq_ok_iff.mpr (List.prefix_append word rest')]
  · cases h
    cases ht

end Words

/-- A text goes on like another one or with a blank, or it ends. -/
def Resumes (rest rest' : List Char) : Prop := ∀ c ∈ rest'.head?, isBlank c ∨ c ∈ rest.head?

theorem Resumes.refl (rest : List Char) : Resumes rest rest := fun _ => .inr

theorem Resumes.blank {c : Char} (h : isBlank c) (rest cs : List Char) :
    Resumes rest (c :: cs) := by
  rintro _ ⟨⟩
  exact .inl h

theorem Resumes.forall_head? {rest rest' : List Char} (h : Resumes rest rest') {p : Char → Prop}
    (hblank : ∀ c, isBlank c → p c) (hrest : ∀ c ∈ rest.head?, p c) : ∀ c ∈ rest'.head?, p c :=
  fun c hc => (h c hc).elim (hblank c) (hrest c)

theorem eq_of_isBlank {c : Char} (h : isBlank c) : c = ' ' ∨ c = '\t' ∨ c = '\n' ∨ c = '\r' := by
  simpa [isBlank, or_assoc] using h

theorem isDigit_of_isBlank (c : Char) (h : isBlank c) : c.isDigit = false := by
  rcases eq_of_isBlank h with rfl | rfl | rfl | rfl <;> rfl

theorem isExponentMark_of_isBlank (c : Char) (h : isBlank c) : isExponentMark c = false := by
  rcases eq_of_isBlank h with rfl | rfl | rfl | rfl <;> rfl

theorem ne_point_of_isBlank (c : Char) (h : isBlank c) : c ≠ '.' := by
  rintro rfl
  cases h

section Numbers

variable {negative : Bool} {significand length n : Nat} {exponent : Int}
  {digits cs rest : List Char} {value : Json}

/-- A scan that succeeds has read a front of its text, and reads the same of a text that goes on
likewise. -/
def Cuts (scan : List Char → NumberScan) (length : Nat) : Prop :=
  ∀ {cs : List Char} {value : Json} {n : Nat}, scan cs = .ok (value, n) →
    ∃ front rest, cs = front ++ rest ∧ n = length + front.length ∧ ∀ rest', Resumes rest rest' →
    scan (front ++ rest') = .ok (value, n)

theorem finishFloat_length (h : finishFloat negative significand exponent length = .ok (value, n)) :
    n = length := by
  rw [finishFloat] at h
  split at h <;> cases h
  rfl

/-- The number with an exponent, whose digits are preceded by `length` characters. -/
def raised (negative : Bool) (significand : Nat) (exponent : Int) (length : Nat)
    (sign : Option Sign)
    (digits : List Char) : NumberScan :=
  match exponentOverflow? 0 digits with
  | some read =>
    if significand ≠ 0 ∧ sign ≠ some .minus then .error (.numberOutOfRange, length + read)
    else .ok (float (Binary64.zero.withSign negative), length + digits.length)
  | none =>
    finishFloat negative significand
      (if sign = some .minus then exponent - (digitsValue digits : Int)
      else exponent + (digitsValue digits : Int))
      (length + digits.length)

theorem raised_length {sign : Option Sign}
    (h : raised negative significand exponent length sign digits = .ok (value, n)) :
    n = length + digits.length := by
  rw [raised] at h
  split at h
  · split at h <;> cases h
    rfl
  · exact finishFloat_length h

theorem scanExponent_eq (sign : Option Sign) (hdigits : AllDigits digits) (hne : digits ≠ [])
    (hrest : NoDigitAhead rest) :
    scanExponent negative significand exponent length ((sign.map Sign.char).toList ++
      (digits ++ rest)) =
      raised negative significand exponent (length + (sign.map Sign.char).toList.length)
      sign digits := by
  have hsign : Numeral.scanSign ((sign.map Sign.char).toList ++ (digits ++ rest)) =
      (sign, digits ++ rest) := by
    obtain ⟨c, more, rfl⟩ := List.exists_cons_of_ne_nil hne
    exact Numeral.scanSign_cons sign (hdigits c List.mem_cons_self) (more ++ rest)
  simp only [scanExponent, hsign, hdigits.takeWhile_append hrest, if_neg hne, List.length_append,
    Nat.add_sub_cancel]
  rfl

/-- A text falls into its first digits and what is after them. -/
theorem exists_digits (cs : List Char) : ∃ digits rest, cs = digits ++ rest ∧
    cs.takeWhile Char.isDigit = digits ∧ AllDigits digits ∧ NoDigitAhead rest := by
  refine ⟨_, _, List.takeWhile_append_dropWhile.symm, rfl, Numeral.allDigits_takeWhile cs,
    fun c hc => ?_⟩
  have hhead := List.head?_dropWhile_not Char.isDigit cs
  rw [Option.mem_def.mp hc] at hhead
  exact hhead

theorem cuts_scanExponent : Cuts (scanExponent negative significand exponent length) length := by
  intro cs value n h
  have hcs := Numeral.eq_of_scanSign cs
  have hne : (Numeral.scanSign cs).2.takeWhile Char.isDigit ≠ [] := by
    intro hnil
    simp only [scanExponent, hnil, ↓reduceIte] at h
    split at h <;> cases h
  generalize Numeral.scanSign cs = parts at hcs hne
  obtain ⟨sign, unsigned⟩ := parts
  obtain ⟨digits, rest, rfl, htake, hdigits, hrest⟩ := exists_digits unsigned
  dsimp only at hcs hne
  rw [htake] at hne
  rw [hcs, scanExponent_eq sign hdigits hne hrest] at h
  refine ⟨(sign.map Sign.char).toList ++ digits,
    rest, by rw [hcs, List.append_assoc], ?_, fun rest' hrest' => ?_⟩
  · rw [raised_length h, List.length_append, Nat.add_assoc]
  · rw [List.append_assoc,
      scanExponent_eq sign hdigits hne (hrest'.forall_head? isDigit_of_isBlank hrest), h]

/-- An exponent may come after the digits of a number. -/
def withExponent (negative : Bool) (significand : Nat) (exponent : Int) (length : Nat)
    (finish : NumberScan) : List Char → NumberScan
  | [] => finish
  | c :: rest =>
    if isExponentMark c then scanExponent negative significand exponent (length + 1) rest
      else finish

theorem withExponent_eq_finish {finish : NumberScan}
    (h : ∀ c ∈ rest.head?, isExponentMark c = false) :
    withExponent negative significand exponent length finish rest = finish := by
  cases rest with
  | nil => rfl
  | cons c rest =>
    rw [withExponent, h c rfl]
    rfl

theorem cuts_withExponent {finish : NumberScan}
    (hfinish : ∀ {value n}, finish = .ok (value, n) → n = length) :
    Cuts (withExponent negative significand exponent length finish) length := by
  intro cs value n h
  by_cases hcs : ∀ c ∈ cs.head?, isExponentMark c = false
  · rw [withExponent_eq_finish hcs] at h
    refine ⟨[], cs, rfl, hfinish h, fun rest' hrest' => ?_⟩
    exact (withExponent_eq_finish (hrest'.forall_head? isExponentMark_of_isBlank hcs)).trans h
  · cases cs with
    | nil => exact absurd nofun hcs
    | cons c cs =>
      have hmark : isExponentMark c := by
        by_contra hmark
        refine hcs ?_
        rintro _ ⟨⟩
        exact Bool.eq_false_iff.mpr hmark
      rw [withExponent, if_pos hmark] at h
      obtain ⟨front, rest, rfl, rfl, hfront⟩ := cuts_scanExponent h
      refine ⟨c :: front, rest, rfl, by rw [List.length_cons]; omega, fun rest' hrest' => ?_⟩
      rw [List.cons_append, withExponent, if_pos hmark]
      exact hfront rest' hrest'

/-- Digits at the front that a scan allows do not depend on what is after them. -/
theorem cuts_digits {scan : List Char → NumberScan} {tail : List Char → List Char → NumberScan}
    {P : List Char → Prop}
    (hscan : ∀ {digits rest}, AllDigits digits → P digits → NoDigitAhead rest →
      scan (digits ++ rest) = tail digits rest)
    (hdigits : ∀ {cs value n}, scan cs = .ok (value, n) → P (cs.takeWhile Char.isDigit))
    (htail : ∀ digits, Cuts (tail digits) (length + digits.length)) : Cuts scan length := by
  intro cs value n h
  have hp := hdigits h
  obtain ⟨digits, rest, rfl, htake, hall, hrest⟩ := exists_digits cs
  rw [htake] at hp
  rw [hscan hall hp hrest] at h
  obtain ⟨front, rest, rfl, rfl, hfront⟩ := htail digits h
  refine ⟨digits ++ front,
    rest, by rw [List.append_assoc], by rw [List.length_append]; omega, fun rest' hrest' => ?_⟩
  have hahead : NoDigitAhead (front ++ rest') := by
    cases front with
    | nil => exact hrest'.forall_head? isDigit_of_isBlank hrest
    | cons c front => exact hrest
  rw [List.append_assoc, hscan hall hp hahead, hfront rest' hrest']

theorem scanFraction_eq (hdigits : AllDigits digits) (hne : digits ≠ [])
    (hrest : NoDigitAhead rest) :
    scanFraction negative significand exponent length (digits ++ rest) =
      let (absorbed, unused) := absorb significand digits
      let exponent := exponent - (digits.length - unused.length : Nat)
      withExponent negative absorbed exponent (length + digits.length)
        (finishFloat negative absorbed exponent (length + digits.length)) rest := by
  simp only [scanFraction, hdigits.takeWhile_append hrest,
    hdigits.dropWhile_append hrest, if_neg hne]
  cases rest <;> rfl

theorem cuts_scanFraction : Cuts (scanFraction negative significand exponent length) length := by
  refine cuts_digits scanFraction_eq (fun h hnil => ?_) fun digits =>
    cuts_withExponent finishFloat_length
  simp only [scanFraction, hnil, ↓reduceIte] at h
  split at h <;> cases h

/-- A whole number, whose characters are `length`. -/
def whole (negative : Bool) (length : Nat) (digits : List Char) : NumberScan :=
  let (significand, unused) := absorb 0 digits
  if unused = [] then .ok (finishWhole negative significand length)
  else finishFloat negative significand unused.length length

theorem whole_length (h : whole negative length digits = .ok (value, n)) : n = length := by
  unfold whole at h
  dsimp only at h
  split at h
  · have hfinish : (finishWhole negative (absorb 0 digits).1 length).2 = n :=
      congrArg Prod.snd (Except.ok.inj h)
    rw [← hfinish, finishWhole]
    split
    · rfl
    · split <;> rfl
  · exact finishFloat_length h

/-- A point or an exponent may come after the digits of a whole number. -/
def afterWhole (negative : Bool) (length : Nat) (digits rest : List Char) : NumberScan :=
  let (significand, unused) := absorb 0 digits
  match rest with
  | c :: rest =>
    if c = '.' then scanFraction negative significand unused.length (length + 1) rest
    else
      withExponent negative significand unused.length length (whole negative length digits)
        (c :: rest)
  | [] => whole negative length digits

theorem afterWhole_eq (h : ∀ c ∈ rest.head?, c ≠ '.') : afterWhole negative length digits rest =
    withExponent negative (absorb 0 digits).1 (absorb 0 digits).2.length length
      (whole negative length digits) rest := by
  cases rest with
  | nil => rfl
  | cons c rest => exact if_neg (h c rfl)

theorem cuts_afterWhole : Cuts (afterWhole negative length digits) length := by
  intro cs value n h
  by_cases hcs : ∀ c ∈ cs.head?, c ≠ '.'
  · rw [afterWhole_eq hcs] at h
    obtain ⟨front, rest, rfl, hn, hfront⟩ := cuts_withExponent whole_length h
    refine ⟨front, rest, rfl, hn, fun rest' hrest' => ?_⟩
    rw [afterWhole_eq, hfront rest' hrest']
    cases front with
    | nil => exact hrest'.forall_head? ne_point_of_isBlank hcs
    | cons c front => exact hcs
  · cases cs with
    | nil => exact absurd nofun hcs
    | cons c cs =>
      have hpoint : c = '.' := by
        by_contra hpoint
        refine hcs ?_
        rintro _ ⟨⟩
        exact hpoint
      subst hpoint
      replace h :
          scanFraction negative (absorb 0 digits).1 (absorb 0 digits).2.length (length + 1) cs =
            .ok (value, n) := h
      obtain ⟨front, rest, rfl, rfl, hfront⟩ := cuts_scanFraction h
      exact ⟨'.' :: front, rest, rfl, by rw [List.length_cons]; omega, hfront⟩

/-- A number without its sign, which has `start` characters. -/
def scanUnsigned (negative : Bool) (start : Nat) (cs : List Char) : NumberScan :=
  match cs.takeWhile Char.isDigit, cs with
  | [], [] => .error (.endInValue, start)
  | [], _ :: _ => .error (.invalidNumber, start + 1)
  | '0' :: _ :: _, _ => .error (.invalidNumber, start + 2)
  | digits, cs => afterWhole negative (start + digits.length) digits (cs.dropWhile Char.isDigit)

theorem scanNumber_eq (cs : List Char) : scanNumber cs =
    scanUnsigned (Numeral.scanMinus cs).1 (cs.length - (Numeral.scanMinus cs).2.length)
      (Numeral.scanMinus cs).2 := by
  unfold scanNumber
  split
  rename_i negative rest heq
  have hminus : Numeral.scanMinus cs = (negative, rest) := by
    cases cs with
    | nil => exact heq
    | cons c cs =>
      by_cases hc : c = '-'
      · subst hc
        exact heq
      · have hscan : Numeral.scanMinus (c :: cs) = (false, c :: cs) := by
          simp [Numeral.scanMinus, hc]
        split at heq
        · rename_i hcs
          exact absurd (List.cons.inj hcs).1 hc
        · exact hscan.trans heq
  rw [hminus]
  rfl

/-- Digits that a number may start with. -/
def IsWhole (digits : List Char) : Prop := digits ≠ [] ∧ ∀ c more, digits ≠ '0' :: c :: more

theorem scanUnsigned_eq {start : Nat} (hdigits : AllDigits digits) (hwhole : IsWhole digits)
    (hrest : NoDigitAhead rest) :
    scanUnsigned negative start (digits ++ rest) =
      afterWhole negative (start + digits.length) digits rest := by
  obtain ⟨hne, hzero⟩ := hwhole
  unfold scanUnsigned
  rw [hdigits.takeWhile_append hrest]
  split
  · exact absurd rfl hne
  · exact absurd rfl hne
  · exact absurd rfl (hzero _ _)
  · rw [hdigits.dropWhile_append hrest]

theorem isWhole_of_scanUnsigned {start : Nat}
    (h : scanUnsigned negative start cs = .ok (value, n)) :
    IsWhole (cs.takeWhile Char.isDigit) := by
  unfold scanUnsigned at h
  split at h
  · cases h
  · cases h
  · cases h
  · rename_i cs _ _ hzero hend hother
    refine ⟨fun hnil => ?_, hzero⟩
    cases cs with
    | nil => exact hend hnil rfl
    | cons c cs => exact hother c cs hnil rfl

theorem cuts_scanUnsigned {start : Nat} : Cuts (scanUnsigned negative start) start :=
  cuts_digits scanUnsigned_eq isWhole_of_scanUnsigned fun _ => cuts_afterWhole

/-- A number is read alike where it is followed by the same character, by a blank or by nothing. -/
theorem scanNumber_cut (h : scanNumber cs = .ok (value, n)) :
    ∃ front rest, cs = front ++ rest ∧ front ≠ [] ∧
      front.length = n ∧ ∀ rest', Resumes rest rest' →
      scanNumber (front ++ rest') = .ok (value, n) := by
  rw [scanNumber_eq] at h
  have hcs := Numeral.eq_of_scanMinus cs
  generalize Numeral.scanMinus cs = parts at h hcs
  obtain ⟨negative, unsigned⟩ := parts
  dsimp only at h hcs
  generalize hsign : (if negative then ['-'] else [] : List Char) = sign at hcs
  subst hcs
  rw [List.length_append, Nat.add_sub_cancel] at h
  obtain ⟨front, rest, rfl, rfl, hfront⟩ := cuts_scanUnsigned h
  obtain ⟨digits, more, hmore, htake, hdigits, -⟩ := exists_digits front
  have hne : digits ≠ [] := by
    have hwhole := isWhole_of_scanUnsigned (hfront [] nofun)
    rw [List.append_nil, htake] at hwhole
    exact hwhole.1
  refine ⟨sign ++ front, rest, (List.append_assoc ..).symm, ?_, List.length_append,
    fun rest' hrest' => ?_⟩
  · rw [hmore]
    exact List.append_ne_nil_of_right_ne_nil _ (List.append_ne_nil_of_left_ne_nil hne more)
  · have hminus : Numeral.scanMinus (sign ++ (front ++ rest')) = (negative, front ++ rest') := by
      rw [← hsign, hmore, List.append_assoc, Numeral.scanMinus_append negative hdigits hne]
    rw [List.append_assoc, scanNumber_eq, hminus, List.length_append, Nat.add_sub_cancel,
      hfront rest' hrest']

end Numbers

theorem nextToken_number {c : Char} (h : c = '-' ∨ c.isDigit) (offset : Nat) (cs : List Char) :
    nextToken offset c cs = match scanNumber (c :: cs) with
      | .ok (value, length) => (.scalar value, length - 1)
      | .error (cause, length) => (.broken ⟨cause, offset + length⟩, 0) := by
  unfold nextToken
  split
  all_goals first
    | exact absurd h (by decide)
    | exact if_pos h

/-- A token that does not break off is read alike at another place and with another text after it
that goes on likewise. -/
theorem nextToken_cut {offset n : Nat} {c : Char} {cs : List Char} {t : Token}
    (h : nextToken offset c cs = (t, n))
    (ht : t.breaksOff = false) : ∃ front rest, cs = front ++ rest ∧ front.length = n ∧
      ∀ offset' rest', Resumes rest rest' → nextToken offset' c (front ++ rest') = (t, n) := by
  by_cases hnumber : c = '-' ∨ c.isDigit
  · rw [nextToken_number hnumber] at h
    split at h
    · rename_i value length hscan
      cases h
      obtain ⟨front, rest, hcs, hne, rfl, hfront⟩ := scanNumber_cut hscan
      obtain ⟨d, front, rfl⟩ := List.exists_cons_of_ne_nil hne
      obtain ⟨rfl, rfl⟩ := List.cons.inj hcs
      refine ⟨front, rest, rfl, rfl, fun offset' rest' hrest' => ?_⟩
      rw [nextToken_number hnumber, ← List.cons_append, hfront rest' hrest']
    · cases h
      cases ht
  · unfold nextToken at h
    split at h
    iterate 6
      · cases h
        exact ⟨[], cs, rfl, rfl, fun _ _ _ => rfl⟩
    iterate 3
      · obtain ⟨front, rest, rfl, rfl, hfront⟩ := wordToken_cut h ht
        exact ⟨front, rest, rfl, rfl, fun offset' rest' _ => hfront offset' rest'⟩
    · split at h
      · rename_i chars read hscan
        cases h
        obtain ⟨-, front, rest, rfl, rfl, hfront⟩ := scanText_cut hscan
        refine ⟨front, rest, rfl, rfl, fun offset' rest' _ => ?_⟩
        rw [nextToken, hfront]
      · cases h
        cases ht
    · rw [if_neg hnumber] at h
      cases h
      refine ⟨[], cs, rfl, rfl, fun offset' rest' _ => ?_⟩
      unfold nextToken
      split
      all_goals first
        | contradiction
        | exact if_neg hnumber

end DerivativeHeaders.Json
