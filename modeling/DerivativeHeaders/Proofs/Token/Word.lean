import DerivativeHeaders.Proofs.Token.Lexes

/-! # Words of a text

A word is an identifier. A reserved name is scanned as a keyword, so no word of a text is one.
-/
namespace DerivativeHeaders

theorem Token.isReserved_of_ofIdentifier {cs : List Char} {name : String}
    (h : ofIdentifier cs = word name) :
    isReserved name = false := by
  rw [ofIdentifier] at h
  split at h
  · cases h
  · split at h
    · cases h
    · rename_i hconst hvoid
      cases h
      simp only [isReserved, Bool.or_eq_false_iff, beq_eq_false_iff_ne]
      constructor
      · intro heq
        exact hconst (by rw [← String.toList_ofList (l := cs), heq]; rfl)
      · intro heq
        exact hvoid (by rw [← String.toList_ofList (l := cs), heq]; rfl)

theorem Token.eq_of_ofIdentifier {cs : List Char} {name : String}
    (h : ofIdentifier cs = word name) :
    name = String.ofList cs := by
  rw [ofIdentifier] at h
  split at h
  · cases h
  · split at h
    · cases h
    · exact (Token.word.inj h).symm

namespace Lexeme

theorem nextMark_ne_word {second : Char} {m : Mark} {short : Lexeme} {name : String}
    (hshort : short ≠ token (.word name)) (cs : List Char) :
    (nextMark second (.mark m) short cs).1 ≠ token (.word name) := by
  cases cs with
  | nil => exact hshort
  | cons c cs =>
    rw [nextMark]
    split
    · intro heq
      cases heq
    · exact hshort

/-- A word is scanned only from a start of an identifier. -/
theorem ofIdentifier_of_next {c : Char} {cs : List Char} {name : String}
    (h : (next c cs).1 = token (.word name)) :
    Identifier.isStart c ∧
      Token.ofIdentifier (c :: cs.takeWhile Identifier.isContinuation) = .word name := by
  unfold next at h
  split at h
  · rename_i hstart
    exact ⟨hstart, token.inj h⟩
  · split at h
    · rw [nextNumber] at h
      split at h <;> cases h
    · split at h
      · exact absurd h (nextMark_ne_word (by simp) cs)
      · exact absurd h (nextMark_ne_word (by simp) cs)
      all_goals cases h

theorem isReserved_of_next {c : Char} {cs : List Char} {name : String}
    (h : (next c cs).1 = token (.word name)) :
    isReserved name = false :=
  Token.isReserved_of_ofIdentifier (ofIdentifier_of_next h).2

theorem isIdentifier_of_next {c : Char} {cs : List Char} {name : String}
    (h : (next c cs).1 = token (.word name)) :
    isIdentifier name := by
  obtain ⟨hstart, hname⟩ := ofIdentifier_of_next h
  rw [Token.eq_of_ofIdentifier hname, isIdentifier, String.toList_ofList]
  exact Bool.and_eq_true_iff.mpr ⟨hstart, List.all_takeWhile⟩

theorem exists_next {offset skip : Nat} {cs : List Char} {x : Located Lexeme}
    (hx : x ∈ scanFrom offset skip cs) :
    ∃ c rest, x.value = (next c rest).1 := by
  induction cs generalizing offset skip with
  | nil => cases hx
  | cons c cs ih =>
    cases skip with
    | succ skip =>
      rw [scanFrom] at hx
      exact ih hx
    | zero =>
      rw [scanFrom] at hx
      split at hx
      · exact ih hx
      · rcases List.mem_cons.mp hx with rfl | hx
        · exact ⟨c, cs, rfl⟩
        · exact ih hx

end Lexeme

theorem exists_next_of_mem_tokensOf {cs : List Char} {x : Located Token} (hx : x ∈ tokensOf cs) :
    ∃ c rest, (Lexeme.next c rest).1 = .token x.value := by
  obtain ⟨y, hy, hxy⟩ := List.mem_filterMap.mp hx
  obtain ⟨t, ht, rfl⟩ := Option.map_eq_some_iff.mp hxy
  obtain ⟨c, rest, hnext⟩ := Lexeme.exists_next hy
  refine ⟨c, rest, ?_⟩
  rw [← hnext]
  cases hvalue : y.value with
  | stray d =>
    rw [hvalue] at ht
    cases ht
  | token t' =>
    rw [hvalue] at ht
    cases ht
    rfl

theorem isReserved_of_mem_tokensOf {cs : List Char} {x : Located Token} (hx : x ∈ tokensOf cs)
    {name : String}
    (h : x.value = .word name) : isReserved name = false := by
  obtain ⟨c, rest, hnext⟩ := exists_next_of_mem_tokensOf hx
  exact Lexeme.isReserved_of_next (hnext.trans (congrArg Lexeme.token h))

theorem isIdentifier_of_mem_tokensOf {cs : List Char} {x : Located Token} (hx : x ∈ tokensOf cs)
    {name : String}
    (h : x.value = .word name) : isIdentifier name := by
  obtain ⟨c, rest, hnext⟩ := exists_next_of_mem_tokensOf hx
  exact Lexeme.isIdentifier_of_next (hnext.trans (congrArg Lexeme.token h))

end DerivativeHeaders
