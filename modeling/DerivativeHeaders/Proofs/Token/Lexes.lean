import DerivativeHeaders.Proofs.Identifier
import DerivativeHeaders.Proofs.Token.Scan

/-! # Texts of tokens

`Lexes cs ts` says that the text `cs` consists of the tokens `ts` with gaps between them and no
stray character. Such texts are put together from words, numerals and marks.
-/
namespace DerivativeHeaders

open Lexeme

/-- The text consists of the tokens and of gaps. -/
def Lexes (cs : List Char) (ts : List Token) : Prop :=
  (Lexeme.scan cs).map Located.value = ts.map Lexeme.token

namespace Located

variable {α β : Type}

theorem map_value_filterMap (f : α → Option β) (items : List (Located α)) :
    (filterMap f items).map Located.value = (items.map Located.value).filterMap f := by
  induction items with
  | nil => rfl
  | cons x items ih =>
    simp only [filterMap, List.filterMap_cons, List.map_cons] at ih ⊢
    cases f x.value with
    | none => simpa using ih
    | some y => simpa using ih

end Located

theorem straysOf_eq_nil_iff {cs : List Char} :
    straysOf cs = [] ↔ ∀ x ∈ Lexeme.scan cs, ∃ t, x.value = Lexeme.token t := by
  simp only [straysOf, Located.filterMap, List.filterMap_eq_nil_iff, Option.map_eq_none_iff]
  refine forall_congr' fun x => imp_congr_right fun _ => ?_
  cases x.value with
  | token t => simp [Lexeme.stray?]
  | stray c => simp [Lexeme.stray?]

/-- A text consists of tokens exactly when it has no stray character and these are its tokens. -/
theorem lexes_iff {cs : List Char} {ts : List Token} :
    Lexes cs ts ↔ straysOf cs = [] ∧ (tokensOf cs).map Located.value = ts := by
  rw [straysOf_eq_nil_iff, tokensOf, Located.map_value_filterMap, Lexes]
  constructor
  · intro h
    refine ⟨fun x hx => ?_, ?_⟩
    · have hmem : x.value ∈ ts.map Lexeme.token := h ▸ List.mem_map_of_mem hx
      obtain ⟨t, -, ht⟩ := List.mem_map.mp hmem
      exact ⟨t, ht.symm⟩
    · rw [h, List.filterMap_map]
      exact List.filterMap_some
  · rintro ⟨hall, rfl⟩
    generalize Lexeme.scan cs = items at hall
    induction items with
    | nil => rfl
    | cons x items ih =>
      obtain ⟨t, ht⟩ := hall x List.mem_cons_self
      have ih := ih fun y hy => hall y (List.mem_cons_of_mem _ hy)
      rw [List.map_cons, ht,
        List.filterMap_cons_some (show (Lexeme.token t).token? = some t from rfl),
        List.map_cons, ← ih]

namespace Lexes

variable {a b cs : List Char} {ts us : List Token}

theorem straysOf (h : Lexes cs ts) : straysOf cs = [] := (lexes_iff.mp h).1

theorem tokensOf (h : Lexes cs ts) : (tokensOf cs).map Located.value = ts := (lexes_iff.mp h).2

theorem nil : Lexes [] [] := rfl

/-- A text that starts with a lexeme of `more` characters behind the first one. -/
theorem cons {c : Char} {t : Token} {more : Nat} (hgap : isGap c = false)
    (hnext : next c cs = (.token t, more))
    (h : Lexes (cs.drop more) ts) : Lexes (c :: cs) (t :: ts) := by
  have hmore := next_snd_le c cs
  rw [hnext] at hmore
  simp only [Lexes, Lexeme.scan, scanFrom, hgap, Bool.false_eq_true, ↓reduceIte, hnext,
    List.map_cons] at h ⊢
  rw [scanFrom_skip _ _ hmore, map_value_scanFrom _ 0, h]

theorem gap {c : Char} (hgap : isGap c) (h : Lexes cs ts) : Lexes (c :: cs) ts := by
  simp only [Lexes, Lexeme.scan, scanFrom, hgap, ↓reduceIte] at h ⊢
  rw [map_value_scanFrom _ 0, h]

theorem space (h : Lexes cs ts) : Lexes (' ' :: cs) ts := h.gap rfl

theorem append (ha : Lexes a ts) (hb : Lexes b us) (hbreak : Breaks b) :
    Lexes (a ++ b) (ts ++ us) := by
  simp only [Lexes, Lexeme.scan] at ha hb ⊢
  rw [scanFrom_append 0 0 (Nat.zero_le _) hbreak, List.map_append, ha, map_value_scanFrom _ 0, hb,
    List.map_append]

end Lexes

theorem isGap_eq_false {c : Char} (h : c ≠ ' ' ∧ c ≠ '\t' ∧ c ≠ '\r' ∧ c ≠ '\n') :
    isGap c = false := by
  simp [isGap, h]

theorem Identifier.isGap_of_isStart {c : Char} (h : Identifier.isStart c) : isGap c = false := by
  refine isGap_eq_false ⟨?_, ?_, ?_, ?_⟩ <;> rintro rfl <;> exact absurd h (by decide)

/-- A text that no word before it goes on with. -/
def StopsWord (cs : List Char) : Prop := ∀ c ∈ cs.head?, Identifier.isContinuation c = false

theorem stopsWord_nil : StopsWord [] := by simp [StopsWord]

theorem stopsWord_cons {c : Char} {cs : List Char} (h : Identifier.isContinuation c = false) :
    StopsWord (c :: cs) := by
  intro d hd
  cases hd
  exact h

theorem Lexes.word_append {w rest : List Char} {ts : List Token} (hw : Identifier.isValidChars w)
    (hrest : StopsWord rest) (h : Lexes rest ts) :
    Lexes (w ++ rest) (.ofIdentifier w :: ts) := by
  cases w with
  | nil => cases hw
  | cons c w =>
    obtain ⟨hstart, hall⟩ := Bool.and_eq_true_iff.mp hw
    have htake : (w ++ rest).takeWhile Identifier.isContinuation = w := by
      rw [List.takeWhile_append_of_pos (List.all_eq_true.mp hall)]
      cases rest with
      | nil => simp
      | cons d rest => simp [hrest d rfl]
    have hnext : next c (w ++ rest) = (.token (.ofIdentifier (c :: w)), w.length) := by
      simp only [next, hstart, ↓reduceIte, htake]
    rw [List.cons_append]
    refine Lexes.cons (Identifier.isGap_of_isStart hstart) hnext ?_
    rwa [List.drop_left]

theorem Lexes.word {w : List Char} (hw : Identifier.isValidChars w) :
    Lexes w [.ofIdentifier w] := by
  simpa using Lexes.word_append hw stopsWord_nil Lexes.nil

theorem Token.ofIdentifier_toList {s : String} (h : isReserved s = false) :
    Token.ofIdentifier s.toList = .word s := by
  simp only [isReserved, Bool.or_eq_false_iff, beq_eq_false_iff_ne] at h
  have hconst : s.toList ≠ ['c', 'o', 'n', 's', 't'] := fun e => h.1 (String.toList_inj.mp e)
  have hvoid : s.toList ≠ ['v', 'o', 'i', 'd'] := fun e => h.2 (String.toList_inj.mp e)
  rw [Token.ofIdentifier, if_neg hconst, if_neg hvoid, String.ofList_toList]

theorem Token.exists_keyword {s : String} (h : isReserved s) :
    ∃ k, Token.ofIdentifier s.toList = .keyword k := by
  simp only [isReserved, Bool.or_eq_true, beq_iff_eq] at h
  rcases h with rfl | rfl
  · exact ⟨.const, rfl⟩
  · exact ⟨.void, rfl⟩

theorem isDigit_not_isStart {c : Char} (h : c.isDigit) : Identifier.isStart c = false := by
  rw [Bool.eq_false_iff]
  intro hstart
  have hdigit := (Char.isDigit_iff_toNat.mp h).2
  have hletter := Identifier.toNat_of_isStart hstart
  have hnine : '9'.toNat = 57 := rfl
  omega

theorem isGap_of_isDigit {c : Char} (h : c.isDigit) : isGap c = false := by
  refine isGap_eq_false ⟨?_, ?_, ?_, ?_⟩ <;> rintro rfl <;> exact absurd h (by decide)

theorem Numeral.head_of_scan {cs rest : List Char} {n : Numeral}
    (h : Numeral.scan cs = some (n, rest)) :
    ∃ c more, cs = c :: more ∧ (c.isDigit ∨ c = '-') := by
  cases cs with
  | nil => cases h
  | cons c cs =>
    refine ⟨c, cs, rfl, ?_⟩
    by_cases hminus : c = '-'
    · exact .inr hminus
    · refine .inl ?_
      cases hdigit : c.isDigit with
      | true => rfl
      | false => simp [Numeral.scan, Numeral.scanMinus, hminus, hdigit] at h

theorem Lexes.number {cs : List Char} {n : Numeral} (h : Numeral.scan cs = some (n, [])) :
    Lexes cs [.number n.value] := by
  obtain ⟨c, more, rfl, hc⟩ := Numeral.head_of_scan h
  have hstart : Identifier.isStart c = false := by
    rcases hc with hc | rfl
    · exact isDigit_not_isStart hc
    · decide
  have hgap : isGap c = false := by
    rcases hc with hc | rfl
    · exact isGap_of_isDigit hc
    · decide
  have hnumber : (c.isDigit || c == '-') = true := by
    rcases hc with hc | rfl
    · simp [hc]
    · decide
  have hnext : next c more = (.token (.number n.value), more.length) := by
    simp only [next, hstart, Bool.false_eq_true, ↓reduceIte, hnumber, nextNumber, h,
      List.length_nil, Nat.sub_zero]
  refine Lexes.cons hgap hnext ?_
  rw [List.drop_length]
  exact Lexes.nil

end DerivativeHeaders
