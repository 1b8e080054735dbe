import DerivativeHeaders.Proofs.Json.Grammar
import DerivativeHeaders.Proofs.Json.Scan
import Mathlib.Logic.Relation

/-! # Blanks in JSON

A blank between tokens moves the ones after it and changes nothing else.
-/
namespace DerivativeHeaders.Json

open Lexeme Text

variable {offset skip : Nat} {c blank : Char} {cs pre post : List Char}

theorem Token.plain_of_breaksOff {t : Token} (h : t.breaksOff) : t.plain = .other := by
  cases t with
  | broken | brokenText => rfl
  | _ => cases h

/-- A token that does not break off is the same at each place. -/
theorem nextToken_shift (h : (nextToken offset c cs).1.breaksOff = false) (offset' : Nat) :
    nextToken offset' c cs = nextToken offset c cs := by
  obtain ⟨front, rest, rfl, -, hfront⟩ := nextToken_cut Prod.mk.eta.symm h
  exact hfront offset' rest (.refl rest)

/-- The tokens of a part of a text without their places. -/
def wordsFrom (offset skip : Nat) (cs : List Char) : List Token :=
  (tokensFrom offset skip cs).map fun t => t.value.plain

theorem tokensFrom_blank (h : isBlank c) (offset : Nat) (cs : List Char) :
    tokensFrom offset 0 (c :: cs) = tokensFrom (offset + c.utf8Size) 0 cs := by
  rw [tokensFrom, if_pos h]

theorem tokensFrom_solid (h : isBlank c = false) (offset : Nat) (cs : List Char) :
    tokensFrom offset 0 (c :: cs) =
      ⟨(nextToken offset c cs).1,
        ⟨offset, offset + c.utf8Size + byteSize (cs.take (nextToken offset c cs).2)⟩⟩ ::
        if (nextToken offset c cs).1.breaksOff then []
        else tokensFrom (offset + c.utf8Size) (nextToken offset c cs).2 cs := by
  rw [tokensFrom, h, if_neg Bool.false_ne_true]
  generalize nextToken offset c cs = x
  obtain ⟨t, n⟩ := x
  cases t <;> rfl

theorem wordsFrom_solid (h : isBlank c = false) (offset : Nat) (cs : List Char) :
    wordsFrom offset 0 (c :: cs) =
      (nextToken offset c cs).1.plain :: if (nextToken offset c cs).1.breaksOff then []
      else wordsFrom (offset + c.utf8Size) (nextToken offset c cs).2 cs := by
  rw [wordsFrom, tokensFrom_solid h, List.map_cons, apply_ite (List.map _)]
  rfl

/-- The words of a text do not depend on its place. -/
theorem wordsFrom_shift (offset offset' skip : Nat) (cs : List Char) :
    wordsFrom offset skip cs = wordsFrom offset' skip cs := by
  induction cs generalizing offset offset' skip with
  | nil => rfl
  | cons c cs ih =>
    cases skip with
    | succ skip => exact ih ..
    | zero =>
      cases hblank : isBlank c with
      | true =>
        rw [wordsFrom, wordsFrom, tokensFrom_blank hblank, tokensFrom_blank hblank]
        exact ih ..
      | false =>
        rw [wordsFrom_solid hblank, wordsFrom_solid hblank]
        cases hbreaks : (nextToken offset c cs).1.breaksOff with
        | false =>
          rw [nextToken_shift hbreaks offset', hbreaks,
            ih (offset + c.utf8Size) (offset' + c.utf8Size)]
        | true =>
          have hbreaks' : (nextToken offset' c cs).1.breaksOff := by
            by_contra hsolid
            rw [nextToken_shift (Bool.eq_false_iff.mpr hsolid) offset] at hbreaks
            exact hsolid hbreaks
          rw [Token.plain_of_breaksOff hbreaks, Token.plain_of_breaksOff hbreaks', hbreaks',
            if_pos rfl, if_pos rfl]

/-- No token goes over the end of `pre`; one that breaks off goes on to the end of the text. -/
def IsGap (offset skip : Nat) (pre post : List Char) : Prop :=
  ∀ t ∈ tokensFrom offset skip (pre ++ post), t.span.start < offset + byteSize pre →
    t.span.stop ≤ offset + byteSize pre ∧ t.value.breaksOff = false

theorem IsGap.of_cons {skip' : Nat} (h : IsGap offset skip (c :: pre) post)
    (hsub : ∀ t ∈ tokensFrom (offset + c.utf8Size) skip' (pre ++ post),
      t ∈ tokensFrom offset skip (c :: (pre ++ post))) :
    IsGap (offset + c.utf8Size) skip' pre post := by
  intro t ht hstart
  have hplace := h t (hsub t ht)
  rw [byteSize_cons, ← Nat.add_assoc] at hplace
  exact hplace hstart

/-- A token at the front of a text that does not go over a place is one of the text up to there. -/
theorem exists_front_of_nextToken (hbreaks : (nextToken offset c (pre ++ post)).1.breaksOff = false)
    (hstop : byteSize ((pre ++ post).take (nextToken offset c (pre ++ post)).2) ≤ byteSize pre) :
    (nextToken offset c (pre ++ post)).2 ≤ pre.length ∧ ∀ blank, isBlank blank →
      nextToken offset c (pre ++ blank :: post) = nextToken offset c (pre ++ post) := by
  obtain ⟨front, rest, happend, hlength, hread⟩ := nextToken_cut Prod.mk.eta.symm hbreaks
  rw [← hlength, happend, List.take_left' rfl] at hstop
  have hprefix : ∃ middle, pre = front ++ middle ∧ rest = middle ++ post := by
    obtain ⟨middle, hfront, hpost⟩ | hprefix := List.append_eq_append_iff.mp happend
    · -- Characters beyond `pre` would have bytes of their own.
      have hmiddle : middle = [] := by
        by_contra hne
        have hpos := byteSize_pos hne
        rw [hfront, byteSize_append] at hstop
        omega
      rw [hmiddle, List.nil_append] at hpost
      rw [hmiddle, List.append_nil] at hfront
      exact ⟨[], by rw [hfront, List.append_nil], hpost.symm⟩
    · exact hprefix
  obtain ⟨middle, rfl, rfl⟩ := hprefix
  refine ⟨by rw [← hlength, List.length_append]; omega, fun blank hblank => ?_⟩
  rw [List.append_assoc]
  refine hread offset (middle ++ blank :: post) ?_
  cases middle with
  | nil => exact .blank hblank _ _
  | cons c middle => exact fun _ => .inr

/-- A blank in a gap changes no word. -/
theorem wordsFrom_insert (hblank : isBlank blank) (hskip : skip ≤ pre.length)
    (hgap : IsGap offset skip pre post) :
    wordsFrom offset skip (pre ++ blank :: post) = wordsFrom offset skip (pre ++ post) := by
  induction pre generalizing offset skip with
  | nil =>
    obtain rfl := Nat.le_zero.mp hskip
    rw [List.nil_append, List.nil_append, wordsFrom, tokensFrom_blank hblank]
    exact wordsFrom_shift ..
  | cons c pre ih =>
    cases skip with
    | succ skip => exact ih (Nat.le_of_succ_le_succ hskip) (hgap.of_cons fun _ => id)
    | zero =>
      rw [List.cons_append, List.cons_append]
      cases hc : isBlank c with
      | true =>
        rw [wordsFrom, wordsFrom, tokensFrom_blank hc, tokensFrom_blank hc]
        exact ih (Nat.zero_le _) (hgap.of_cons fun t ht => by rwa [tokensFrom_blank hc])
      | false =>
        have hfirst :=
          hgap _ (by rw [List.cons_append, tokensFrom_solid hc]; exact List.mem_cons_self)
        dsimp only at hfirst
        rw [byteSize_cons] at hfirst
        obtain ⟨hstop, hbreaks⟩ := hfirst (by have hpos := utf8Size_pos c; omega)
        obtain ⟨hlength, hread⟩ := exists_front_of_nextToken hbreaks (by omega)
        rw [wordsFrom_solid hc, wordsFrom_solid hc, hread blank hblank, hbreaks,
          if_neg Bool.false_ne_true, if_neg Bool.false_ne_true, ih hlength]
        refine hgap.of_cons fun t ht => ?_
        rw [tokensFrom_solid hc, hbreaks, if_neg Bool.false_ne_true]
        exact List.mem_cons_of_mem _ ht

/-- A blank is put between the tokens of a text. -/
inductive InsertsBlank : List Char → List Char → Prop
  | insert (pre post : List Char) (blank : Char) (hblank : isBlank blank)
      (hgap : IsGap 0 0 pre post) :
      InsertsBlank (pre ++ post) (pre ++ blank :: post)

theorem words_of_eqvGen {cs cs' : List Char} (h : Relation.EqvGen InsertsBlank cs cs') :
    words cs' = words cs := by
  induction h with
  | rel _ _ h =>
    obtain ⟨pre, post, blank, hblank, hgap⟩ := h
    exact wordsFrom_insert hblank (Nat.zero_le _) hgap
  | refl => rfl
  | symm _ _ _ ih => exact ih.symm
  | trans _ _ _ _ _ ih ih' => exact ih'.trans ih

end DerivativeHeaders.Json
