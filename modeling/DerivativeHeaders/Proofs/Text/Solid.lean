import DerivativeHeaders.Proofs.Token.Scan
import DerivativeHeaders.Text.Blank
import DerivativeHeaders.Text.Ends
import Mathlib.Data.List.Basic
import Mathlib.Data.List.DropRight
import Mathlib.Data.List.TakeWhile

/-! # Solid texts

A solid text starts and ends with a character that is not blank, so trimming takes exactly the
blanks around it. Cutting a text at the bytes of its first part gives the two parts.
-/
namespace DerivativeHeaders.Text

/-- Both ends of the text are there and not blank. -/
structure Solid (cs : List Char) : Prop where
  first : ∃ c rest, cs = c :: rest ∧ isBlank c = false
  last : ∃ start c, cs = start ++ [c] ∧ isBlank c = false

theorem Solid.ne_nil {cs : List Char} (h : Solid cs) : cs ≠ [] := by
  obtain ⟨c, rest, rfl, -⟩ := h.first
  nofun

theorem solid_singleton {c : Char} (h : isBlank c = false) : Solid [c] :=
  ⟨⟨c, [], rfl, h⟩, [], c, rfl, h⟩

theorem solid_of_forall {cs : List Char} (hne : cs ≠ []) (h : ∀ c ∈ cs, isBlank c = false) :
    Solid cs := by
  refine ⟨?_, ?_⟩
  · obtain ⟨c, rest, rfl⟩ := List.exists_cons_of_ne_nil hne
    exact ⟨c, rest, rfl, h c List.mem_cons_self⟩
  · refine ⟨cs.dropLast, cs.getLast hne, (List.dropLast_concat_getLast hne).symm, ?_⟩
    exact h _ (List.getLast_mem hne)

/-- Only the outer ends of a composed text count. -/
theorem solid_of_all {cs : List Char} (hne : cs ≠ []) (h : cs.all fun c => !isBlank c) : Solid cs :=
  solid_of_forall hne fun c hc => by simpa using List.all_eq_true.mp h c hc

theorem Solid.append {a b : List Char} (ha : Solid a) (hb : Solid b) (middle : List Char) :
    Solid (a ++ middle ++ b) := by
  obtain ⟨c, rest, rfl, hc⟩ := ha.first
  obtain ⟨start, d, rfl, hd⟩ := hb.last
  exact ⟨⟨c, rest ++ middle ++ (start ++ [d]), rfl, hc⟩, c :: rest ++ middle ++ start,
    d, by simp, hd⟩

theorem Solid.append' {a b : List Char} (ha : Solid a) (hb : Solid b) : Solid (a ++ b) := by
  simpa using ha.append hb []

theorem Solid.trimStart {cs : List Char} (h : Solid cs) : trimStart cs = cs := by
  obtain ⟨c, rest, rfl, hc⟩ := h.first
  simp [Text.trimStart, hc]

theorem Solid.trimEnd {cs : List Char} (h : Solid cs) : trimEnd cs = cs := by
  obtain ⟨start, c, rfl, hc⟩ := h.last
  simp [Text.trimEnd, hc]

theorem Solid.trim {cs : List Char} (h : Solid cs) : trim cs = cs := by
  rw [Text.trim, h.trimStart, h.trimEnd]

theorem trimStart_spaces (n : Nat) (cs : List Char) :
    trimStart (List.replicate n ' ' ++ cs) = trimStart cs := by
  have hblank : ∀ c ∈ List.replicate n ' ', isBlank c := by
    intro c hc
    rw [List.eq_of_mem_replicate hc]
    decide
  exact List.dropWhile_append_of_pos hblank

/-- Trimming takes the indent off a line. -/
theorem Solid.trim_spaces {cs : List Char} (h : Solid cs) (n : Nat) :
    Text.trim (List.replicate n ' ' ++ cs) = cs := by
  rw [Text.trim, trimStart_spaces, h.trimStart, h.trimEnd]

theorem exists_trimEnd (cs : List Char) :
    ∃ back, (∀ c ∈ back, isBlank c) ∧ cs = trimEnd cs ++ back := by
  refine ⟨(cs.reverse.takeWhile isBlank).reverse, fun c hc => ?_, ?_⟩
  · exact List.mem_takeWhile_imp (List.mem_reverse.mp hc)
  · rw [Text.trimEnd, ← List.reverse_append, List.takeWhile_append_dropWhile, List.reverse_reverse]

/-- Trimming takes blanks off both ends. -/
theorem exists_trim (cs : List Char) :
    ∃ front back, (∀ c ∈ front, isBlank c) ∧ (∀ c ∈ back, isBlank c) ∧
      cs = front ++ (trim cs ++ back) := by
  obtain ⟨back, hback, heq⟩ := exists_trimEnd (trimStart cs)
  refine ⟨cs.takeWhile isBlank, back, fun c hc => List.mem_takeWhile_imp hc, hback, ?_⟩
  rw [Text.trim, ← heq]
  exact List.takeWhile_append_dropWhile.symm

theorem trim_append_blank (cs : List Char) {back : List Char} (h : ∀ c ∈ back, isBlank c) :
    trim (cs ++ back) = trim cs := by
  have hend (a : List Char) : trimEnd (a ++ back) = trimEnd a := by
    rw [trimEnd, List.reverse_append, List.dropWhile_append_of_pos fun c hc =>
      h c (List.mem_reverse.mp hc)]
    rfl
  cases hrest : cs.dropWhile isBlank with
  | nil =>
    have hall : ∀ c ∈ cs ++ back, isBlank c := by
      intro c hc
      rcases List.mem_append.mp hc with hc | hc
      · exact List.dropWhile_eq_nil_iff.mp hrest c hc
      · exact h c hc
    rw [trim, trim, trimStart, trimStart, hrest, List.dropWhile_eq_nil_iff.mpr hall]
  | cons d rest =>
    rw [trim, trim, trimStart, trimStart, List.dropWhile_append, hrest]
    exact hend (d :: rest)

theorem trimEnd_trimEnd (cs : List Char) : trimEnd (trimEnd cs) = trimEnd cs :=
  List.rdropWhile_idempotent isBlank cs

theorem trim_trim (cs : List Char) : trim (trim cs) = trim cs := by
  have hstart : trimStart (trimStart cs) = trimStart cs := List.dropWhile_idempotent isBlank cs
  rw [trim, trim]
  cases hcs : trimStart cs with
  | nil => rfl
  | cons c rest =>
    rw [hcs, trimStart] at hstart
    -- The first character is not blank, and the other end does not reach it.
    have hc := List.head?_dropWhile_not isBlank (c :: rest)
    rw [hstart] at hc
    have hprefix : trimEnd (c :: rest) <+: c :: rest := List.rdropWhile_prefix isBlank _
    rcases List.prefix_cons_iff.mp hprefix with hnil | ⟨t, ht, -⟩
    · rw [hnil]
      rfl
    · rw [ht, trimStart, List.dropWhile_cons_of_neg (by simpa using hc), ← ht, trimEnd_trimEnd]

theorem exists_dropEnd (c : Char) (cs : List Char) :
    ∃ back, cs = dropEnd c cs ++ back ∧ (back = [] ∨ back = [c]) := by
  rw [dropEnd]
  split
  · rename_i hlast
    exact ⟨[c], (List.dropLast_append_getLast? c hlast).symm, .inr rfl⟩
  · exact ⟨[], (List.append_nil cs).symm, .inl rfl⟩

theorem utf8Size_pos (c : Char) : 0 < c.utf8Size := Char.utf8Size_pos c

theorem takeBytes_append (a b : List Char) : takeBytes (byteSize a) (a ++ b) = a := by
  induction a with
  | nil =>
    cases b with
    | nil => rfl
    | cons c b =>
      have hpos := utf8Size_pos c
      simp only [byteSize, List.foldr_nil, List.nil_append, takeBytes]
      rw [if_neg (by omega)]
  | cons c a ih =>
    have hle : c.utf8Size ≤ c.utf8Size + byteSize a := Nat.le_add_right _ _
    rw [Lexeme.byteSize_cons, List.cons_append, takeBytes, if_pos hle, Nat.add_sub_cancel_left, ih]

theorem dropBytes_append (a b : List Char) : dropBytes (byteSize a) (a ++ b) = b := by
  induction a with
  | nil => cases b <;> rfl
  | cons c a ih =>
    have hpos := utf8Size_pos c
    have hne : c.utf8Size + byteSize a ≠ 0 := by omega
    rw [Lexeme.byteSize_cons, List.cons_append, dropBytes, if_neg hne, Nat.add_sub_cancel_left, ih]

theorem dropEnd_append_self (c : Char) (cs : List Char) : dropEnd c (cs ++ [c]) = cs := by
  simp [dropEnd]

theorem dropEnd_of_ne {c : Char} {cs : List Char} (h : cs.getLast? ≠ some c) : dropEnd c cs = cs :=
  if_neg h

def OneLine (cs : List Char) : Prop := '\n' ∉ cs ∧ '\r' ∉ cs

@[simp] theorem oneLine_append {a b : List Char} : OneLine (a ++ b) ↔ OneLine a ∧ OneLine b := by
  simp only [OneLine, List.mem_append, not_or]
  exact ⟨fun h => ⟨⟨h.1.1, h.2.1⟩, h.1.2, h.2.2⟩, fun h => ⟨⟨h.1.1, h.2.1⟩, h.1.2, h.2.2⟩⟩

@[simp] theorem oneLine_cons {c : Char} {cs : List Char} :
    OneLine (c :: cs) ↔ (c ≠ '\n' ∧ c ≠ '\r') ∧ OneLine cs := by
  simp only [OneLine, List.mem_cons, not_or]
  exact ⟨fun h => ⟨⟨Ne.symm h.1.1, Ne.symm h.2.1⟩, h.1.2, h.2.2⟩,
    fun h => ⟨⟨Ne.symm h.1.1, h.2.1⟩, Ne.symm h.1.2, h.2.2⟩⟩

@[simp] theorem oneLine_nil : OneLine [] := ⟨nofun, nofun⟩

theorem oneLine_of_forall {p : Char → Bool} {cs : List Char} (h : ∀ c ∈ cs, p c)
    (hfeed : p '\n' = false)
    (hreturn : p '\r' = false) : OneLine cs := by
  refine ⟨fun hc => ?_, fun hc => ?_⟩
  · rw [h _ hc] at hfeed
    cases hfeed
  · rw [h _ hc] at hreturn
    cases hreturn

end DerivativeHeaders.Text
