import DerivativeHeaders.Proofs.Token.Strays
import DerivativeHeaders.Proofs.Token.Word

/-! # The places of lexemes

The lexemes of a text stand in it one after the other, and what belongs to none of them is gaps.
Each lexeme is what the characters at its place spell.
-/
namespace DerivativeHeaders

open Lexeme Text

namespace Numeral

theorem eq_of_scanMinus (cs : List Char) :
    cs = (if (scanMinus cs).1 then ['-'] else []) ++ (scanMinus cs).2 := by
  unfold scanMinus
  split <;> rfl

theorem eq_of_scanSign (cs : List Char) :
    cs = ((scanSign cs).1.map Sign.char).toList ++ (scanSign cs).2 := by
  unfold scanSign
  split <;> rfl

theorem allDigits_takeWhile (cs : List Char) : AllDigits (cs.takeWhile Char.isDigit) :=
  fun _ hc => List.mem_takeWhile_imp hc

theorem eq_of_scanFraction (cs : List Char) : AllDigits (scanFraction cs).1 ∧
    cs = fractionSpelling (scanFraction cs).1 ++ (scanFraction cs).2 := by
  unfold scanFraction
  split
  · split
    · exact ⟨List.forall_mem_nil _, rfl⟩
    · rename_i cs hne
      refine ⟨allDigits_takeWhile cs, ?_⟩
      rw [fractionSpelling, if_neg hne, List.cons_append, List.takeWhile_append_dropWhile]
  · exact ⟨List.forall_mem_nil _, rfl⟩

theorem eq_of_scanExponent (cs : List Char) : (∀ x ∈ (scanExponent cs).1, x.WellFormed) ∧
    cs = exponentSpelling (scanExponent cs).1 ++ (scanExponent cs).2 := by
  have hnone : ∀ x ∈ (none : Option ExponentPart), x.WellFormed := by
    intro x hx
    cases hx
  cases cs with
  | nil => exact ⟨hnone, rfl⟩
  | cons c cs =>
    have hsign := eq_of_scanSign cs
    rw [scanExponent]
    split
    · rename_i hmark
      generalize scanSign cs = parts at hsign
      obtain ⟨sign, rest⟩ := parts
      dsimp only at hsign ⊢
      split
      · exact ⟨hnone, rfl⟩
      · rename_i hne
        refine ⟨?_, ?_⟩
        · rintro x ⟨⟩
          exact ⟨hmark, allDigits_takeWhile rest, hne⟩
        · rw [exponentSpelling, Option.map_some, Option.getD_some,
            ExponentPart.spelling, List.cons_append, List.cons_append, List.append_assoc,
            List.takeWhile_append_dropWhile, ← hsign]
    · exact ⟨hnone, rfl⟩

/-- What is scanned as a numeral is spelled at the front of the text. -/
theorem wellFormed_of_scan {cs rest : List Char} {n : Numeral} (h : scan cs = some (n, rest)) :
    n.WellFormed ∧ cs = n.spelling ++ rest := by
  have hminus := eq_of_scanMinus cs
  rw [scan] at h
  generalize scanMinus cs = minus at h hminus
  obtain ⟨negative, unsigned⟩ := minus
  dsimp only at h hminus
  split at h
  · cases h
  · rename_i hne
    obtain ⟨hfraction, heq⟩ := eq_of_scanFraction (unsigned.dropWhile Char.isDigit)
    generalize scanFraction (unsigned.dropWhile Char.isDigit) = fraction at h hfraction heq
    obtain ⟨hexponent, heq'⟩ := eq_of_scanExponent fraction.2
    generalize scanExponent fraction.2 = exponent at h hexponent heq'
    cases h
    refine ⟨⟨allDigits_takeWhile unsigned, hne, hfraction, hexponent⟩, ?_⟩
    rw [spelling_eq, List.append_assoc, List.append_assoc, List.append_assoc, ← heq', ← heq,
      List.takeWhile_append_dropWhile, ← hminus]

end Numeral

namespace Lexeme

/-- What the characters at the place of a lexeme say. -/
def IsSpelled : Lexeme → List Char → Prop
  | token (.keyword k), slice => slice = k.text.toList
  | token (.mark m), slice => slice = m.text.toList
  | token (.number x), slice => ∃ n : Numeral, n.WellFormed ∧ slice = n.spelling ∧ x = n.value
  | token (.word name), slice => slice = name.toList ∧ isIdentifier name ∧ isReserved name = false
  | stray c, slice => slice = [c]

/-- Words and keywords, which are the longest ones at their places. -/
def IsWord : Lexeme → Prop
  | token (.keyword _) | token (.word _) => True
  | _ => False

theorem isSpelled_ofIdentifier {w : List Char} (hw : Identifier.isValidChars w) :
    IsSpelled (token (.ofIdentifier w)) w := by
  have hword {name : String} (h : Token.ofIdentifier w = .word name) :
      IsSpelled (token (.ofIdentifier w)) w := by
    rw [h]
    obtain rfl := Token.eq_of_ofIdentifier h
    refine ⟨String.toList_ofList.symm, ?_, Token.isReserved_of_ofIdentifier h⟩
    rw [isIdentifier, String.toList_ofList]
    exact hw
  by_cases hconst : w = ['c', 'o', 'n', 's', 't']
  · rw [hconst]
    exact rfl
  · by_cases hvoid : w = ['v', 'o', 'i', 'd']
    · rw [hvoid]
      exact rfl
    · exact hword ((if_neg hconst).trans (if_neg hvoid))

theorem isSpelled_nextMark {c second : Char} {long : Mark} {short : Lexeme}
    (hlong : [c, second] = long.text.toList)
    (hshort : IsSpelled short [c]) (cs : List Char) :
    IsSpelled (nextMark second (.mark long) short cs).1
      (c :: cs.take (nextMark second (.mark long) short cs).2) := by
  cases cs with
  | nil => exact hshort
  | cons d cs =>
    rw [nextMark]
    split
    · rename_i hd
      rw [hd]
      exact hlong
    · exact hshort

theorem isSpelled_nextNumber (c : Char) (cs : List Char) :
    IsSpelled (nextNumber c cs).1 (c :: cs.take (nextNumber c cs).2) := by
  rw [nextNumber]
  split
  · rename_i n rest hscan
    obtain ⟨hn, heq⟩ := Numeral.wellFormed_of_scan hscan
    refine ⟨n, hn, ?_, rfl⟩
    have hne : n.spelling ≠ [] := by
      intro hnil
      rw [Numeral.spelling_eq] at hnil
      exact hn.whole_ne_nil (List.append_eq_nil_iff.mp (List.append_eq_nil_iff.mp hnil).2).1
    have hlength : cs.length - rest.length + 1 = n.spelling.length := by
      have htotal := congrArg List.length heq
      have hpos := List.length_pos_of_ne_nil hne
      rw [List.length_cons, List.length_append] at htotal
      omega
    rw [← List.take_succ_cons, heq, hlength, List.take_left]
  · exact rfl

/-- A lexeme is spelled by its characters. -/
theorem isSpelled_next (c : Char) (cs : List Char) :
    IsSpelled (next c cs).1 (c :: cs.take (next c cs).2) := by
  unfold next
  split
  · rename_i hstart
    have htake :=
      List.prefix_iff_eq_take.mp (List.takeWhile_prefix (l := cs) Identifier.isContinuation)
    dsimp only
    rw [← htake]
    exact isSpelled_ofIdentifier (Bool.and_eq_true_iff.mpr ⟨hstart, List.all_takeWhile⟩)
  · split
    · exact isSpelled_nextNumber c cs
    · split
      · refine isSpelled_nextMark rfl ?_ cs
        exact rfl
      · refine isSpelled_nextMark rfl ?_ cs
        exact rfl
      all_goals exact rfl

theorem not_isWord_nextMark {second : Char} {long : Mark} {short : Lexeme} (hshort : ¬ IsWord short)
    (cs : List Char) :
    ¬ IsWord (nextMark second (.mark long) short cs).1 := by
  cases cs with
  | nil => exact hshort
  | cons d cs =>
    rw [nextMark]
    split
    · exact not_false
    · exact hshort

/-- No word goes on behind a word. -/
theorem stopsWord_of_next {c : Char} {cs : List Char} (h : IsWord (next c cs).1) :
    StopsWord (cs.drop (next c cs).2) := by
  unfold next at h ⊢
  split at h
  · rename_i hstart
    rw [if_pos hstart]
    have hsplit := List.takeWhile_append_dropWhile (p := Identifier.isContinuation) (l := cs)
    have hdrop :
        (cs.takeWhile Identifier.isContinuation ++ cs.dropWhile Identifier.isContinuation).drop
          (cs.takeWhile Identifier.isContinuation).length =
        cs.dropWhile Identifier.isContinuation :=
      List.drop_left
    rw [hsplit] at hdrop
    dsimp only
    rw [hdrop]
    intro d hd
    have hhead := List.head?_dropWhile_not Identifier.isContinuation cs
    rw [Option.mem_def.mp hd] at hhead
    exact hhead
  · split at h
    · rw [nextNumber] at h
      split at h <;> exact h.elim
    · split at h
      · refine absurd h (not_isWord_nextMark ?_ cs)
        exact not_false
      · refine absurd h (not_isWord_nextMark ?_ cs)
        exact not_false
      all_goals exact h.elim

theorem isBlank_of_isGap {c : Char} (h : isGap c) : isBlank c := by
  simp only [isGap, Bool.or_eq_true, beq_iff_eq] at h
  rcases h with ((rfl | rfl) | rfl) | rfl <;> decide

theorem isGap_of_isContinuation {c : Char} (h : Identifier.isContinuation c) : isGap c = false := by
  by_contra hgap
  have hblank := isBlank_of_isGap (Bool.eq_true_of_not_eq_false hgap)
  rw [Identifier.isBlank_eq_false h] at hblank
  cases hblank

theorem isGap_of_mem_exponent {x : ExponentPart} (hx : x.WellFormed) :
    ∀ c ∈ x.spelling, isGap c = false := by
  obtain ⟨mark, sign, digits⟩ := x
  obtain ⟨hmark, hdigits, -⟩ := hx
  intro c hc
  simp only [ExponentPart.spelling, List.cons_append, List.mem_cons, List.mem_append] at hc
  rcases hc with rfl | hc | hc
  · rcases hmark with rfl | rfl <;> rfl
  · cases sign with
    | none => cases hc
    | some sign =>
      rw [List.mem_singleton.mp hc]
      cases sign <;> rfl
  · exact isGap_of_isDigit (hdigits c hc)

theorem isGap_of_mem_spelling {n : Numeral} (hn : n.WellFormed) :
    ∀ c ∈ n.spelling, isGap c = false := by
  intro c hc
  rw [Numeral.spelling_eq, List.mem_append, List.mem_append, List.mem_append] at hc
  rcases hc with hc | hc | hc | hc
  · split at hc
    · rw [List.mem_singleton.mp hc]
      rfl
    · cases hc
  · exact isGap_of_isDigit (hn.whole c hc)
  · rw [Numeral.fractionSpelling] at hc
    split at hc
    · cases hc
    · rcases List.mem_cons.mp hc with rfl | hc
      · rfl
      · exact isGap_of_isDigit (hn.fraction c hc)
  · cases hexponent : n.exponent with
    | none =>
      rw [hexponent] at hc
      cases hc
    | some x =>
      rw [hexponent] at hc
      exact isGap_of_mem_exponent (hn.exponent x hexponent) c hc

/-- No lexeme has a gap in it. -/
theorem IsSpelled.isGap {lexeme : Lexeme} {slice : List Char} (h : lexeme.IsSpelled slice)
    (hstray : ∀ c, lexeme = stray c → isGap c = false) : ∀ c ∈ slice, isGap c = false := by
  intro c hc
  match lexeme with
  | token (.keyword k) =>
    obtain rfl : slice = k.text.toList := h
    exact isGap_of_isContinuation (List.all_eq_true.mp (by cases k <;> decide) c hc)
  | token (.mark m) =>
    obtain rfl : slice = m.text.toList := h
    have hall : m.text.toList.all fun c => !Lexeme.isGap c := by cases m <;> decide
    simpa using List.all_eq_true.mp hall c hc
  | token (.number x) =>
    obtain ⟨n, hn, rfl, -⟩ := h
    exact isGap_of_mem_spelling hn c hc
  | token (.word name) =>
    obtain ⟨rfl, hname, -⟩ := h
    exact isGap_of_isContinuation (Identifier.forall_isContinuation hname c hc)
  | stray d =>
    obtain rfl : slice = [d] := h
    rw [List.mem_singleton.mp hc]
    exact hstray d rfl

/-- The text whose first byte is at `offset` is gaps and slices, which spell the lexemes that stand
there. -/
inductive Covers : Nat → List Char → List (Located Lexeme) → Prop where
  | nil {offset : Nat} : Covers offset [] []
  | gap {offset : Nat} {c : Char} {cs : List Char} {items : List (Located Lexeme)} (hgap : isGap c)
      (hrest : Covers (offset + c.utf8Size) cs items) : Covers offset (c :: cs) items
  | lexeme {offset : Nat} {slice cs : List Char} {lexeme : Lexeme} {items : List (Located Lexeme)}
      (hne : slice ≠ [])
      (hspelled : lexeme.IsSpelled slice) (hgap : ∀ c ∈ slice, isGap c = false)
      (hword : lexeme.IsWord → StopsWord cs)
      (hrest : Covers (offset + byteSize slice) cs items) :
      Covers offset (slice ++ cs) (⟨lexeme, ⟨offset, offset + byteSize slice⟩⟩ :: items)

theorem covers_scanFrom (offset : Nat) (cs : List Char) :
    Covers offset cs (scanFrom offset 0 cs) := by
  match cs with
  | [] => exact .nil
  | c :: cs =>
    rw [scanFrom]
    split
    · rename_i hgap
      exact .gap hgap (covers_scanFrom _ cs)
    · rename_i hgap
      have hmore := next_snd_le c cs
      have hspelled := isSpelled_next c cs
      have hrest :=
        covers_scanFrom (offset + byteSize (c :: cs.take (next c cs).2)) (cs.drop (next c cs).2)
      have hstray : ∀ d, (next c cs).1 = stray d → isGap d = false := by
        intro d hd
        rw [hd] at hspelled
        obtain ⟨rfl, -⟩ := List.cons.inj (show c :: cs.take (next c cs).2 = [d] from hspelled)
        exact Bool.eq_false_of_not_eq_true hgap
      have hcovers := Covers.lexeme (List.cons_ne_nil _ _) hspelled (hspelled.isGap hstray)
        stopsWord_of_next hrest
      rw [List.cons_append, List.take_append_drop] at hcovers
      have hrest : scanFrom (offset + c.utf8Size) (next c cs).2 cs =
          scanFrom (offset + byteSize (c :: cs.take (next c cs).2)) 0 (cs.drop (next c cs).2) := by
        rw [scanFrom_skip _ _ hmore, byteSize_cons, Nat.add_assoc]
      dsimp only
      rw [hrest]
      exact hcovers
termination_by cs.length
decreasing_by
  · rw [List.length_drop, List.length_cons]
    omega
  · exact Nat.lt_succ_self _

namespace Covers

variable {offset : Nat} {cs : List Char} {items : List (Located Lexeme)}

theorem start_le (h : Covers offset cs items) : ∀ x ∈ items, offset ≤ x.span.start := by
  induction h with
  | nil => exact List.forall_mem_nil _
  | gap _ _ ih => exact fun x hx => Nat.le_trans (Nat.le_add_right ..) (ih x hx)
  | lexeme _ _ _ _ _ ih =>
    intro x hx
    rcases List.mem_cons.mp hx with rfl | hx
    · exact Nat.le_refl _
    · exact Nat.le_trans (Nat.le_add_right ..) (ih x hx)

theorem pairwise (h : Covers offset cs items) :
    items.Pairwise fun x y => x.span.stop ≤ y.span.start := by
  induction h with
  | nil => exact .nil
  | gap _ _ ih => exact ih
  | lexeme _ _ _ _ hrest ih => exact List.pairwise_cons.mpr ⟨hrest.start_le, ih⟩

/-- Every lexeme has its slice in the text, with a text before it and one after it. -/
theorem exists_slice (h : Covers offset cs items) :
    ∀ x ∈ items, ∃ before slice after, cs = before ++ (slice ++ after) ∧
      x.span = ⟨offset + byteSize before, offset + byteSize (before ++ slice)⟩ ∧ slice ≠ [] ∧
      x.value.IsSpelled slice ∧ (x.value.IsWord → StopsWord after) := by
  induction h with
  | nil => exact List.forall_mem_nil _
  | @gap offset c cs items _ _ ih =>
    intro x hx
    obtain ⟨before, slice, after, rfl, hspan, h⟩ := ih x hx
    refine ⟨c :: before, slice, after, rfl, ?_, h⟩
    rw [hspan, List.cons_append, byteSize_cons, byteSize_cons, Nat.add_assoc, Nat.add_assoc]
  | @lexeme offset slice cs lexeme items hne hspelled _ hword _ ih =>
    intro x hx
    rcases List.mem_cons.mp hx with rfl | hx
    · exact ⟨[], slice, cs, rfl, rfl, hne, hspelled, hword⟩
    · obtain ⟨before, slice', after, rfl, hspan, h⟩ := ih x hx
      refine ⟨slice ++ before, slice', after, (List.append_assoc ..).symm, ?_, h⟩
      rw [hspan, List.append_assoc, byteSize_append slice, byteSize_append slice, Nat.add_assoc,
        Nat.add_assoc]

/-- The bytes of a character belong to a lexeme unless it is a gap. -/
theorem holds_iff (h : Covers offset cs items) {before after : List Char} {c : Char} {k : Nat}
    (hcs : cs = before ++ c :: after)
    (hlow : offset + byteSize before ≤ k) (hhigh : k < offset + byteSize before + c.utf8Size) :
    (∃ x ∈ items, x.span.start ≤ k ∧ k < x.span.stop) ↔ isGap c = false := by
  induction h generalizing before with
  | nil => simp at hcs
  | @gap offset d cs items hgap hrest ih =>
    cases before with
    | nil =>
      obtain ⟨rfl, rfl⟩ := List.cons.inj hcs
      rw [hgap]
      refine iff_of_false ?_ (by simp)
      rintro ⟨x, hx, hstart, -⟩
      have hoffset := hrest.start_le x hx
      simp only [byteSize, List.foldr_nil] at hhigh
      omega
    | cons e before =>
      obtain ⟨rfl, rfl⟩ := List.cons.inj hcs
      rw [byteSize_cons] at hlow hhigh
      exact ih rfl (by omega) (by omega)
  | @lexeme offset slice cs lexeme items hne hspelled hgap _ hrest ih =>
    have hlater (between : List Char) (hbefore : before = slice ++ between)
        (hrest : cs = between ++ c :: after) :
        (∃ x ∈ (⟨lexeme, ⟨offset, offset + byteSize slice⟩⟩ : Located Lexeme) :: items,
        x.span.start ≤ k ∧ k < x.span.stop) ↔ isGap c = false := by
      rw [hbefore, byteSize_append, ← Nat.add_assoc] at hlow hhigh
      rw [← ih hrest hlow hhigh, List.exists_mem_cons_iff, or_iff_right]
      rintro ⟨-, hstop⟩
      dsimp only at hstop
      omega
    rcases List.append_eq_append_iff.mp hcs with
      ⟨between, hbefore, hrest⟩ | ⟨between, hslice, hafter⟩
    · exact hlater between hbefore hrest
    · cases between with
      | nil => exact hlater [] (by rw [hslice, List.append_nil, List.append_nil]) hafter.symm
      | cons d between =>
        obtain ⟨rfl, -⟩ := List.cons.inj hafter
        refine iff_of_true ⟨_, List.mem_cons_self, Nat.le_trans (Nat.le_add_right ..) hlow, ?_⟩ ?_
        · rw [hslice, byteSize_append, byteSize_cons]
          dsimp only
          omega
        · exact hgap c (by rw [hslice]; exact List.mem_append_right _ List.mem_cons_self)

end Covers

/-- The characters that no lexeme has in it. -/
theorem isGap_iff {c : Char} : isGap c = false ↔ ¬ (c = ' ' ∨ c = '\t' ∨ c = '\r' ∨ c = '\n') := by
  simp [isGap, and_assoc]

end Lexeme

/-- The lexemes have slices of the text at their places, one after the other. Words and keywords are
not followed by a character that goes on with them, and the bytes outside of all lexemes are those
of spaces, tabs, carriage returns and line feeds. -/
structure Accounts (cs : List Char) (items : List (Located Lexeme)) : Prop where
  slices : ∀ x ∈ items, ∃ before slice after, cs = before ++ (slice ++ after) ∧
    x.span = ⟨byteSize before, byteSize (before ++ slice)⟩ ∧ slice ≠ [] ∧ x.value.IsSpelled slice ∧
    (x.value.IsWord → StopsWord after)
  proper : ∀ x ∈ items, x.span.start < x.span.stop ∧ x.span.stop ≤ byteSize cs
  ascending : items.Pairwise fun x y => x.span.stop ≤ y.span.start
  gaps : ∀ before c after, cs = before ++ c :: after → ∀ k, byteSize before ≤ k →
    k < byteSize before + c.utf8Size →
    ((∃ x ∈ items, x.span.start ≤ k ∧ k < x.span.stop) ↔
    ¬ (c = ' ' ∨ c = '\t' ∨ c = '\r' ∨ c = '\n'))

theorem byteSize_pos {cs : List Char} (h : cs ≠ []) : 0 < byteSize cs := by
  obtain ⟨c, cs, rfl⟩ := List.exists_cons_of_ne_nil h
  rw [byteSize_cons]
  exact Nat.lt_of_lt_of_le (utf8Size_pos c) (Nat.le_add_right ..)

theorem accounts_scan (cs : List Char) : Accounts cs (Lexeme.scan cs) := by
  have hcovers := covers_scanFrom 0 cs
  have hslices : ∀ x ∈ Lexeme.scan cs, ∃ before slice after, cs = before ++ (slice ++ after) ∧
      x.span = ⟨byteSize before, byteSize (before ++ slice)⟩ ∧ slice ≠ [] ∧
      x.value.IsSpelled slice ∧ (x.value.IsWord → StopsWord after) := by
    intro x hx
    obtain ⟨before, slice, after, hcs, hspan, h⟩ := hcovers.exists_slice x hx
    rw [Nat.zero_add, Nat.zero_add] at hspan
    exact ⟨before, slice, after, hcs, hspan, h⟩
  refine ⟨hslices, fun x hx => ?_, hcovers.pairwise, fun before c after hcs k hlow hhigh => ?_⟩
  · obtain ⟨before, slice, after, rfl, hspan, hne, -⟩ := hslices x hx
    have hpos := byteSize_pos hne
    rw [hspan]
    simp only [byteSize_append]
    omega
  · rw [← isGap_iff]
    exact hcovers.holds_iff hcs (by omega) (by omega)

end DerivativeHeaders
