import DerivativeHeaders.Header.Layout
import Mathlib.Data.List.Basic

/-! # The shape of a prototype

However parameters and remarks are mixed, the lines of a prototype without the remarks and without
the indentation are one declaration: its opening, the parameters with commas between them, and its
closing.
-/
namespace DerivativeHeaders.Prototype

/-- A line that holds a slot behind `lead`, and what is left of it with `kept` in place of `lead`
and without the slot if that is a remark. No comma follows a remark. -/
inductive Strips (lead kept : String) : Slot → String → String → Prop
  | parameter (text tail : String) :
      Strips lead kept (.parameter text) (lead ++ text ++ tail) (kept ++ text ++ tail)
  | remark (text tail : String) (htail : tail.toList.head? ≠ some ',') :
    Strips lead kept (.remark text) (lead ++ text ++ tail) (kept ++ tail)

/-- What stands before the slot with the given index: the opening, or as many spaces as the opening
has bytes. -/
def leadOf (function : String) : Nat → String
  | 0 => opening function
  | _ + 1 => String.ofList (List.replicate (opening function).utf8ByteSize ' ')

/-- The opening is kept, the indentation is not. -/
def keptOf (function : String) : Nat → String
  | 0 => opening function
  | _ + 1 => ""

def parameterTexts (slots : List Slot) : List String :=
  (slots.filter Slot.isParameter).map Slot.text

/-- The lines of a prototype, and what is left of each of them without indentation and remarks. -/
structure IsLaidOut (function : String) (slots : List Slot)
    (lines stripped : List String) : Prop where
  count : lines.length = max 1 slots.length
  strippedCount : stripped.length = lines.length
  empty : slots = [] → stripped = lines
  holds : ∀ i slot, slots[i]? = some slot → ∃ line rest, lines[i]? = some line ∧
    stripped[i]? = some rest ∧ Strips (leadOf function i) (keptOf function i) slot line rest
  joined : String.join stripped = opening function ++ ",".intercalate (parameterTexts slots) ++ ");"

/-- The comma and the closing after a slot. -/
def tailOf (slot : Slot) (rest : List Slot) (closing : String) : String :=
  (if slot.isParameter && rest.any Slot.isParameter then "," else "") ++
  (if rest.isEmpty then closing else "")

def strippedText (slot : Slot) (rest : List Slot) (closing : String) : String :=
  (if slot.isParameter then slot.text else "") ++ tailOf slot rest closing

/-- The lines of the slots without indentation and remarks. -/
def strippedLines (closing kept : String) : List Slot → List String
  | [] => []
  | slot :: rest => (kept ++ strippedText slot rest closing) :: strippedLines closing "" rest

variable {closing : String}

theorem slotText_eq (slot : Slot) (rest : List Slot) (closing : String) :
    slotText slot rest closing = slot.text ++ tailOf slot rest closing := by
  unfold slotText tailOf
  exact String.append_assoc

theorem tailOf_remark (text : String) (rest : List Slot) (closing : String) :
    tailOf (.remark text) rest closing = if rest.isEmpty then closing else "" := by
  simp [tailOf, Slot.isParameter]

theorem strips_slotText (hclosing : closing.toList.head? ≠ some ',')
    (lead kept : String) (slot : Slot)
    (rest : List Slot) :
    Strips lead kept slot (lead ++ slotText slot rest closing)
      (kept ++ strippedText slot rest closing) := by
  unfold strippedText
  rw [slotText_eq]
  cases slot with
  | parameter text =>
    simp only [Slot.isParameter, Slot.text, ↓reduceIte, ← String.append_assoc]
    exact .parameter text _
  | remark text =>
    simp only [Slot.isParameter, Slot.text, Bool.false_eq_true, ↓reduceIte,
      String.empty_append, ← String.append_assoc]
    apply Strips.remark text
    rw [tailOf_remark]
    split
    · exact hclosing
    · simp

theorem length_slotLines (closing lead indent : String) (slots : List Slot) :
    (slotLines closing lead indent slots).length = slots.length := by
  induction slots generalizing lead with
  | nil => rfl
  | cons slot rest ih => simp only [slotLines, List.length_cons, ih]

theorem length_strippedLines (closing kept : String) (slots : List Slot) :
    (strippedLines closing kept slots).length = slots.length := by
  induction slots generalizing kept with
  | nil => rfl
  | cons slot rest ih => simp only [strippedLines, List.length_cons, ih]

/-- Each slot has its line, and only the first line has another lead. -/
theorem exists_strips (hclosing : closing.toList.head? ≠ some ',') (lead indent kept : String)
    {slots : List Slot}
    {i : Nat} {slot : Slot} (hslot : slots[i]? = some slot) :
    ∃ line rest, (slotLines closing lead indent slots)[i]? = some line ∧
      (strippedLines closing kept slots)[i]? = some rest ∧
      Strips (if i = 0 then lead else indent) (if i = 0 then kept else "") slot line rest := by
  induction slots generalizing lead kept i with
  | nil => cases hslot
  | cons head slots ih =>
    cases i with
    | zero =>
      cases hslot
      exact ⟨_, _, rfl, rfl, strips_slotText hclosing lead kept slot slots⟩
    | succ i =>
      obtain ⟨line, rest, hline, hrest, hstrips⟩ := ih indent "" hslot
      rw [ite_self, ite_self] at hstrips
      exact ⟨line, rest, hline, hrest, hstrips⟩

theorem any_isParameter_iff {slots : List Slot} :
    slots.any Slot.isParameter ↔ parameterTexts slots ≠ [] := by
  simp [parameterTexts]

/-- A comma follows a parameter exactly if another parameter comes. -/
theorem intercalate_parameterTexts (slot : Slot) (rest : List Slot) :
    ",".intercalate (parameterTexts (slot :: rest)) =
      (if slot.isParameter then slot.text else "") ++
      (if slot.isParameter && rest.any Slot.isParameter then "," else "") ++
      ",".intercalate (parameterTexts rest) := by
  cases slot with
  | remark text => simp [parameterTexts, Slot.isParameter]
  | parameter text =>
    have hcons : parameterTexts (.parameter text :: rest) = text :: parameterTexts rest := rfl
    by_cases hrest : parameterTexts rest = []
    · have hnone : rest.any Slot.isParameter = false :=
        Bool.eq_false_iff.mpr fun hany => any_isParameter_iff.mp hany hrest
      simp [hcons, hrest, hnone, Slot.isParameter, Slot.text]
    · have hany := any_isParameter_iff.mpr hrest
      rw [hcons, String.intercalate_cons_of_ne_nil hrest]
      simp [hany, Slot.isParameter, Slot.text]

theorem join_strippedLines (closing kept : String) {slots : List Slot} (hne : slots ≠ []) :
    String.join (strippedLines closing kept slots) =
      kept ++ ",".intercalate (parameterTexts slots) ++ closing := by
  induction slots generalizing kept with
  | nil => exact absurd rfl hne
  | cons slot rest ih =>
    rw [strippedLines, String.join_cons, intercalate_parameterTexts, strippedText, tailOf]
    cases rest with
    | nil => simp [strippedLines, parameterTexts, String.append_assoc]
    | cons next rest =>
      rw [ih "" (List.cons_ne_nil _ _)]
      simp only [List.isEmpty_cons, Bool.false_eq_true, ↓reduceIte, String.append_empty,
        String.empty_append, String.append_assoc]

example : layout ");" "f" [.remark "/* a */", .parameter "int x", .remark "/* b */",
      .parameter "int* y", .remark "/* c */"] =
    ["void f(/* a */", "       int x,", "       /* b */", "       int* y", "       /* c */);"] := by
  decide

end DerivativeHeaders.Prototype
