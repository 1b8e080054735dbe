import DerivativeHeaders.Proofs.Token.Lexes

/-! # Stray characters

No lexeme goes over a parenthesis or over a blank character, so a text is scanned in the parts
between them. A stray character that trimming takes away is a blank that is no gap.
-/
namespace DerivativeHeaders

open Lexeme Text

/-- The lexemes of a text without their places. -/
def lexemesOf (cs : List Char) : List Lexeme := (Lexeme.scan cs).map Located.value

namespace Lexeme

/-- The characters of a mark are its text. -/
theorem cons_take_of_next {c : Char} {cs : List Char} {m : Mark}
    (h : (next c cs).1 = token (.mark m)) :
    c :: cs.take (next c cs).2 = m.text.toList := by
  have hmark (second : Char) (long : Mark) (short : Lexeme)
      (h : (nextMark second (.mark long) short cs).1 = token (.mark m))
      (hlong : [c, second] = long.text.toList)
      (hshort : short = token (.mark m) → [c] = m.text.toList) :
      c :: cs.take (nextMark second (.mark long) short cs).2 = m.text.toList := by
    cases cs with
    | nil => exact hshort h
    | cons d cs =>
      rw [nextMark] at h ⊢
      split at h
      · rename_i hd
        cases h
        rw [if_pos hd, hd, ← hlong]
        rfl
      · rename_i hd
        rw [if_neg hd]
        exact hshort h
  have hword (w : List Char) (hw : Token.ofIdentifier w = .mark m) : False := by
    unfold Token.ofIdentifier at hw
    split at hw
    · cases hw
    · split at hw <;> cases hw
  unfold next at h ⊢
  by_cases hstart : Identifier.isStart c
  · rw [if_pos hstart] at h
    exact (hword _ (token.inj h)).elim
  · rw [if_neg hstart] at h ⊢
    by_cases hnumber : c.isDigit || c == '-'
    · rw [if_pos hnumber, nextNumber] at h
      split at h <;> cases h
    · rw [if_neg hnumber] at h ⊢
      split at h
      · exact hmark _ _ _ h rfl fun hslash => by cases hslash
      · exact hmark _ _ _ h rfl fun hstar => by cases hstar; rfl
      all_goals cases h
      all_goals rfl

/-- A text is scanned apart at a mark that no lexeme before it goes on with. -/
theorem exists_cut_of_scanFrom {m : Mark} {d : Char} (hd : m.text.toList = [d]) (hbreak : isBreak d)
    {offset skip : Nat} {cs : List Char} {span : Span} {before after : List (Located Lexeme)}
    (hskip : skip ≤ cs.length)
    (h : scanFrom offset skip cs = before ++ ⟨.token (.mark m), span⟩ :: after) :
    ∃ a b, cs = a ++ d :: b ∧ skip ≤ a.length ∧ scanFrom offset skip a = before ∧
      span.start = offset + byteSize a ∧ span.stop = span.start + d.utf8Size ∧
      scanFrom span.stop 0 b = after := by
  induction cs generalizing offset skip before with
  | nil => simp [scanFrom] at h
  | cons c cs ih =>
    cases skip with
    | succ skip =>
      obtain ⟨a, b, rfl, hskip, hbefore, hstart, hafter⟩ := ih (Nat.le_of_succ_le_succ hskip) h
      refine ⟨c :: a, b, rfl, Nat.succ_le_succ hskip, hbefore, ?_, hafter⟩
      rw [hstart, byteSize_cons, Nat.add_assoc]
    | zero =>
      rw [scanFrom] at h
      cases hgap : isGap c with
      | true =>
        rw [if_pos hgap] at h
        obtain ⟨a, b, rfl, -, hbefore, hstart, hafter⟩ := ih (Nat.zero_le _) h
        refine ⟨c :: a, b, rfl, Nat.zero_le _, ?_, ?_, hafter⟩
        · rw [scanFrom, if_pos hgap, hbefore]
        · rw [hstart, byteSize_cons, Nat.add_assoc]
      | false =>
        have hmore := next_snd_le c cs
        simp only [hgap, Bool.false_eq_true, ↓reduceIte] at h
        cases before with
        | nil =>
          obtain ⟨hx, hafter⟩ := List.cons.inj h
          obtain ⟨hvalue, hspan⟩ := Located.mk.inj hx
          have htext := cons_take_of_next hvalue
          rw [hd] at htext
          obtain ⟨rfl, htake⟩ := List.cons.inj htext
          have hzero : (next c cs).2 = 0 := by
            have hlength := congrArg List.length htake
            rw [List.length_take, List.length_nil] at hlength
            omega
          rw [hzero] at hafter hspan
          subst hspan
          exact ⟨[], cs, rfl, Nat.le_refl 0, rfl, rfl, rfl, hafter⟩
        | cons x before =>
          obtain ⟨hx, hrest⟩ := List.cons.inj h
          obtain ⟨a, b, rfl, hskip, hbefore, hstart, hafter⟩ := ih hmore hrest
          -- The lexeme ends before the mark, so it is the same without the mark and what follows
          -- it.
          rw [next_append c a (breaks_cons hbreak)] at hx hskip hbefore
          refine ⟨c :: a, b, rfl, Nat.zero_le _, ?_, ?_, hafter⟩
          · simp only [scanFrom, hgap, Bool.false_eq_true, ↓reduceIte]
            rw [hbefore, ← hx, List.take_append_of_le_length hskip]
          · rw [hstart, byteSize_cons, Nat.add_assoc]

end Lexeme

section Values

variable {a b cs : List Char}

theorem map_value_tokensOf (cs : List Char) :
    (tokensOf cs).map Located.value = (lexemesOf cs).filterMap token? :=
  Located.map_value_filterMap _ _

theorem map_value_straysOf (cs : List Char) :
    (straysOf cs).map Located.value = (lexemesOf cs).filterMap stray? :=
  Located.map_value_filterMap _ _

theorem lexemesOf_append (h : Breaks b) : lexemesOf (a ++ b) = lexemesOf a ++ lexemesOf b := by
  rw [lexemesOf, Lexeme.scan, scanFrom_append 0 0 (Nat.zero_le _) h, List.map_append,
    map_value_scanFrom (0 + byteSize a) 0]
  rfl

/-- A lexeme of one character, or a gap. -/
theorem lexemesOf_cons {c : Char} {here : List Lexeme}
    (h : if isGap c then here = [] else ∃ lexeme, next c cs = (lexeme, 0) ∧ here = [lexeme]) :
    lexemesOf (c :: cs) = here ++ lexemesOf cs := by
  rw [lexemesOf, Lexeme.scan, scanFrom]
  split at h
  · rename_i hgap
    rw [if_pos hgap, map_value_scanFrom _ 0, h]
    rfl
  · rename_i hgap
    obtain ⟨lexeme, hnext, rfl⟩ := h
    rw [if_neg hgap, hnext, List.map_cons, map_value_scanFrom _ 0]
    rfl

/-- What tokens stand before and behind a mark is scanned from what stands there in the text. -/
theorem exists_cut {m : Mark} {d : Char} (hd : m.text.toList = [d])
    (hbreak : isBreak d) {span : Span}
    {before after : List (Located Token)} (h : tokensOf cs = before ++ ⟨.mark m, span⟩ :: after) :
    ∃ a b, cs = a ++ d :: b ∧ span.start = byteSize a ∧ span.stop = byteSize (a ++ [d]) ∧
      tokensOf a = before ∧ (tokensOf b).map Located.value = after.map Located.value := by
  obtain ⟨xs, ys, hscan, hbefore, hrest⟩ := List.filterMap_eq_append_iff.mp h
  obtain ⟨none, x, zs, rfl, hnone, hx, hafter⟩ := List.filterMap_eq_cons_iff.mp hrest
  obtain ⟨t, ht, htx⟩ := Option.map_eq_some_iff.mp hx
  cases htx
  have hvalue : x.value = .token (.mark m) := by
    cases hx : x.value with
    | token t =>
      rw [hx] at ht
      cases ht
      rfl
    | stray c =>
      rw [hx] at ht
      cases ht
  have hscan' : scanFrom 0 0 cs = (xs ++ none) ++ ⟨.token (.mark m), x.span⟩ :: zs := by
    rw [← hvalue, List.append_assoc]
    exact hscan
  obtain ⟨a, b, rfl, -, ha, hstart, hstop, hb⟩ :=
    exists_cut_of_scanFrom hd hbreak (Nat.zero_le _) hscan'
  rw [Nat.zero_add] at hstart
  refine ⟨a, b, rfl, hstart, ?_, ?_, ?_⟩
  · rw [hstop, hstart, byteSize_append]
    rfl
  · have hnil :
        List.filterMap (fun x => (token? x.value).map (⟨·, x.span⟩ : Token → Located Token)) none =
          [] :=
      List.filterMap_eq_nil_iff.mpr hnone
    rw [← hbefore, tokensOf, Lexeme.scan, ha, Located.filterMap, List.filterMap_append, hnil,
      List.append_nil]
  · rw [map_value_tokensOf, lexemesOf, Lexeme.scan, map_value_scanFrom 0 x.span.stop, hb, ← hafter]
    exact (Located.map_value_filterMap token? zs).symm

theorem straysOf_eq_nil_iff_lexemesOf :
    straysOf cs = [] ↔ (lexemesOf cs).filterMap stray? = [] := by
  rw [← map_value_straysOf, List.map_eq_nil_iff]

end Values

namespace Text

theorem isBreak_of_isBlank {c : Char} (h : isBlank c) : isBreak c := by
  have hcont : Identifier.isContinuation c = false := by
    by_contra hcont
    rw [Identifier.isBlank_eq_false (Bool.eq_true_of_not_eq_false hcont)] at h
    cases h
  have hne : ∀ d, isBlank d = false → c ≠ d := by
    rintro d hd rfl
    rw [hd] at h
    cases h
  simp only [isBreak, hcont, beq_eq_false_iff_ne.mpr (hne '.' rfl),
    beq_eq_false_iff_ne.mpr (hne '+' rfl), beq_eq_false_iff_ne.mpr (hne '-' rfl),
    beq_eq_false_iff_ne.mpr (hne '*' rfl),
    beq_eq_false_iff_ne.mpr (hne '/' rfl)]
  rfl

theorem breaks_of_blank {cs : List Char} (h : ∀ c ∈ cs, isBlank c) : Breaks cs :=
  fun c hc => isBreak_of_isBlank (h c (List.mem_of_head? hc))

theorem next_of_isBlank {c : Char} (h : isBlank c) (cs : List Char) :
    next c cs = (.stray c, 0) := by
  have hbreak := isBreak_of_isBlank h
  have hstart : Identifier.isStart c = false := by
    by_contra hstart
    have hcont := Identifier.isContinuation_of_isStart (Bool.eq_true_of_not_eq_false hstart)
    rw [(not_of_isBreak hbreak).1] at hcont
    cases hcont
  have hnumber : (c.isDigit || c == '-') = false := by
    rw [not_isDigit_of_isBreak hbreak, beq_eq_false_iff_ne.mpr (not_of_isBreak hbreak).2.2.2.1]
    rfl
  unfold next
  simp only [hstart, hnumber, Bool.false_eq_true, ↓reduceIte]
  split
  case h_9 => rfl
  all_goals exact absurd h (by decide)

/-- A blank is a gap or a stray character. -/
theorem lexemesOf_cons_blank {c : Char} (h : isBlank c) (cs : List Char) :
    lexemesOf (c :: cs) = (if isGap c then [] else [.stray c]) ++ lexemesOf cs := by
  refine lexemesOf_cons ?_
  split
  · rfl
  · exact ⟨.stray c, next_of_isBlank h cs, rfl⟩

theorem lexemesOf_blank_append {a : List Char} (h : ∀ c ∈ a, isBlank c) (b : List Char) :
    lexemesOf (a ++ b) = lexemesOf a ++ lexemesOf b := by
  induction a with
  | nil => rfl
  | cons c a ih =>
    obtain ⟨hc, ha⟩ := List.forall_mem_cons.mp h
    rw [List.cons_append, lexemesOf_cons_blank hc, lexemesOf_cons_blank hc, ih ha,
      List.append_assoc]

theorem tokens_of_blank {cs : List Char} (h : ∀ c ∈ cs, isBlank c) :
    (lexemesOf cs).filterMap token? = [] := by
  induction cs with
  | nil => rfl
  | cons c cs ih =>
    obtain ⟨hc, hcs⟩ := List.forall_mem_cons.mp h
    rw [lexemesOf_cons_blank hc, List.filterMap_append, ih hcs]
    split <;> rfl

/-- Blanks around a text add no token to it. -/
theorem map_value_tokensOf_blank {front back : List Char} (hfront : ∀ c ∈ front, isBlank c)
    (hback : ∀ c ∈ back, isBlank c) (cs : List Char) :
    (tokensOf (front ++ (cs ++ back))).map Located.value = (tokensOf cs).map Located.value := by
  rw [map_value_tokensOf, lexemesOf_blank_append hfront, lexemesOf_append (breaks_of_blank hback),
    List.filterMap_append, List.filterMap_append, tokens_of_blank hfront, tokens_of_blank hback,
    List.nil_append, List.append_nil, map_value_tokensOf]

theorem map_value_tokensOf_trim (cs : List Char) :
    (tokensOf (trim cs)).map Located.value = (tokensOf cs).map Located.value := by
  obtain ⟨front, back, hfront, hback, heq⟩ := exists_trim cs
  have hblank := map_value_tokensOf_blank hfront hback (trim cs)
  rw [← heq] at hblank
  exact hblank.symm

end Text

/-- Every character of the text that belongs to no token and to no gap is a blank. -/
def StraysBlank (cs : List Char) : Prop := ∀ x ∈ straysOf cs, isBlank x.value

namespace StraysBlank

variable {a b cs : List Char}

theorem iff_lexemesOf : StraysBlank cs ↔ ∀ c ∈ (lexemesOf cs).filterMap stray?, isBlank c := by
  rw [← map_value_straysOf, List.forall_mem_map]
  rfl

theorem of_straysOf (h : straysOf cs = []) : StraysBlank cs := by
  intro x hx
  rw [h] at hx
  cases hx

theorem of_append (h : lexemesOf (a ++ b) = lexemesOf a ++ lexemesOf b) (ha : StraysBlank a)
    (hb : StraysBlank b) :
    StraysBlank (a ++ b) := by
  rw [iff_lexemesOf] at ha hb ⊢
  rw [h, List.filterMap_append]
  intro c hc
  rcases List.mem_append.mp hc with hc | hc
  · exact ha c hc
  · exact hb c hc

theorem of_blank (h : ∀ c ∈ cs, isBlank c) : StraysBlank cs := by
  induction cs with
  | nil => exact of_straysOf rfl
  | cons c cs ih =>
    obtain ⟨hc, hcs⟩ := List.forall_mem_cons.mp h
    rw [iff_lexemesOf, lexemesOf_cons_blank hc, List.filterMap_append]
    intro d hd
    rcases List.mem_append.mp hd with hd | hd
    · split at hd
      · cases hd
      · rw [List.mem_singleton.mp hd]
        exact hc
    · exact iff_lexemesOf.mp (ih hcs) d hd

theorem append_blank (h : StraysBlank a) (hb : ∀ c ∈ b, isBlank c) : StraysBlank (a ++ b) :=
  of_append (lexemesOf_append (breaks_of_blank hb)) h (of_blank hb)

theorem blank_append (ha : ∀ c ∈ a, isBlank c) (h : StraysBlank b) : StraysBlank (a ++ b) :=
  of_append (lexemesOf_blank_append ha b) (of_blank ha) h

end StraysBlank

end DerivativeHeaders
