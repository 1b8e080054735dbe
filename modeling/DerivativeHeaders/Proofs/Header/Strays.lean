import DerivativeHeaders.Proofs.Header.Faithful

/-! # Stray characters of a prototype

The fields of an accepted prototype have no stray characters but blanks. What stands on the opening
line before the parenthesis, and on the closing line behind it, is read by its tokens only, with any
stray characters among them.
-/
namespace DerivativeHeaders

open Outcome Lexeme Text

namespace Prototype

variable {start closing : List Char} {inner : List (List Char)} {function : String} {b : Block}
  {p : Prototype}

theorem straysOf_leftParen (a cs : List Char) :
    straysOf (a ++ '(' :: cs) = [] ↔ straysOf a = [] ∧ straysOf cs = [] := by
  simp only [straysOf_eq_nil_iff_lexemesOf, lexemesOf_leftParen, List.filterMap_append,
    List.append_eq_nil_iff]
  rfl

theorem straysOf_rightParen (a cs : List Char) :
    straysOf (a ++ ')' :: cs) = [] ↔ straysOf a = [] ∧ straysOf cs = [] := by
  simp only [straysOf_eq_nil_iff_lexemesOf, lexemesOf_rightParen, List.filterMap_append,
    List.append_eq_nil_iff]
  rfl

/-- The lines lex without stray characters exactly if their parts do. -/
theorem straysOf_enclose (hinner : inner ≠ [])
    (hstart : ∀ cs, straysOf (start ++ cs) = [] ↔ straysOf start = [] ∧ straysOf cs = []) :
    (∀ line ∈ enclose start (')' :: closing) inner, straysOf line = []) ↔
      straysOf start = [] ∧ (∀ t ∈ inner, straysOf t = []) ∧ straysOf closing = [] := by
  induction inner generalizing start with
  | nil => exact absurd rfl hinner
  | cons line lines ih =>
    cases lines with
    | nil => simp only [enclose, List.forall_mem_singleton, hstart, straysOf_rightParen]
    | cons next lines =>
      have hnil : ∀ cs, straysOf ([] ++ cs) = [] ↔ straysOf [] = [] ∧ straysOf cs = [] :=
        fun cs => (and_iff_right rfl).symm
      have ih := ih (List.cons_ne_nil _ _) hnil
      have hempty : straysOf [] = [] := rfl
      rw [enclose, List.forall_mem_cons, hstart, ih, List.forall_mem_cons (l := next :: lines),
        and_iff_right hempty]
      tauto

theorem Extent.straysOf_lines (e : Extent b function) : (∀ line ∈ e.lines, straysOf line = []) ↔
    straysOf e.opening = [] ∧ (∀ t ∈ e.inner, straysOf t = []) ∧ straysOf e.closing = [] := by
  have hopening : straysOf (e.opening ++ ['(']) = [] ↔ straysOf e.opening = [] := by
    rw [straysOf_leftParen]
    exact and_iff_left rfl
  rw [Extent.lines, straysOf_enclose e.inner_ne_nil, hopening]
  intro cs
  rw [hopening, List.append_assoc]
  exact straysOf_leftParen e.opening cs

/-- What a block is read from, and where stray characters can stand in it. -/
theorem exists_extent_of_ofBlock (h : ofBlock b = .ok p) :
    ∃ e : Extent b p.function, ∀ t ∈ e.inner, StraysBlank t := by
  obtain ⟨e, fields, hfields, -⟩ := isWrittenIn_of_ofBlock h
  refine ⟨e, fun t ht => ?_⟩
  obtain ⟨field?, -, hfield⟩ := forall₂_exists_right hfields ht
  exact hfield.straysBlank

end Prototype

namespace Header

open Prototype

variable {h : Header}

/-- The prototypes of an accepted text lex without stray characters exactly if nothing strays before
the parenthesis that opens them, behind the one that closes them, and among the blanks around their
fields. -/
theorem straysBlank_of_ofText {text : String} (ht : ofText text = .ok h) :
    ∃ blocks, Block.locate (Line.ofText text.toList) = .ok blocks ∧ ∀ b ∈ blocks, ∃ p,
      ofBlock b = .ok p ∧ ∃ e : Extent b p.function, (∀ t ∈ e.inner, StraysBlank t) ∧
        ((∀ line ∈ e.lines, straysOf line = []) ↔
          straysOf e.opening = [] ∧ (∀ t ∈ e.inner, straysOf t = []) ∧
          straysOf e.closing = []) := by
  obtain ⟨blocks, hlocate, hblocks⟩ := ofText_eq_ok_iff.mp ht
  refine ⟨blocks, hlocate, fun b hb => ?_⟩
  obtain ⟨p, hp⟩ := exists_prototype_of_ofBlocks hblocks b hb
  obtain ⟨e, hblank⟩ := exists_extent_of_ofBlock hp
  exact ⟨p, hp, e, hblank, e.straysOf_lines⟩

/-- A text whose opening line is commented out. -/
def commentedLines : List String :=
  ["//=====[Option]=====", "//\x7b", "// \"enable_1st_order_derivative\": false,",
    "// \"enable_2nd_order_derivative\": false", "//\x7d", "//=====[Option]=====",
    "// void f(double x,", "double* y);"]

def commentedBlock : Block :=
  ⟨.plain, 1, [⟨7, "// void f(double x,".toList⟩, ⟨8, "double* y);".toList⟩]⟩

theorem exists_commentedLines : ∃ h p, ofText ("\n".intercalate commentedLines) = .ok h ∧
    Block.locate (Line.ofText ("\n".intercalate commentedLines).toList) = .ok [commentedBlock] ∧
    ofBlock commentedBlock = .ok p ∧ p.function = "f" := by
  have htext : ("\n".intercalate commentedLines).toList =
      ['\n'].intercalate (commentedLines.map String.toList) :=
    String.toList_intercalate
  have hlocate :
      Block.locate (Line.ofText (['\n'].intercalate (commentedLines.map String.toList))) =
        .ok [commentedBlock] :=
    eq_ok_of_toOption (by decide +kernel)
  have hp : ofBlock commentedBlock =
      .ok ⟨"f", [(7, .input ⟨"double", "x"⟩), (8, .output "double" "y")]⟩ :=
    eq_ok_of_toOption (by decide +kernel)
  obtain ⟨h, hblocks⟩ := exists_of_isOk (x := ofBlocks [commentedBlock]) (by decide +kernel)
  rw [← htext] at hlocate
  exact ⟨h, _, ofText_eq_ok_iff.mpr ⟨_, hlocate, hblocks⟩, hlocate, hp, rfl⟩

theorem straysBlank_of_commentedLines : ∃ h, ofText ("\n".intercalate commentedLines) = .ok h ∧
    ∃ blocks, Block.locate (Line.ofText ("\n".intercalate commentedLines).toList) = .ok blocks ∧
      ∀ b ∈ blocks, ∃ p, ofBlock b = .ok p ∧ ∃ e : Extent b p.function,
        (∀ t ∈ e.inner, StraysBlank t) ∧ ((∀ line ∈ e.lines, straysOf line = []) ↔
          straysOf e.opening = [] ∧ (∀ t ∈ e.inner, straysOf t = []) ∧
          straysOf e.closing = []) := by
  obtain ⟨h, p, hh, -⟩ := exists_commentedLines
  exact ⟨h, hh, straysBlank_of_ofText hh⟩

/-- The commented line opens the prototype of an accepted text. -/
theorem straysOf_commentedLines : ∃ h b p, ofText ("\n".intercalate commentedLines) = .ok h ∧
    Block.locate (Line.ofText ("\n".intercalate commentedLines).toList) = .ok [b] ∧
      ofBlock b = .ok p ∧
    ∃ e : Extent b p.function, "// void f(double x,".toList ∈ e.lines ∧
      straysOf "// void f(double x,".toList ≠ [] := by
  obtain ⟨h, p, hh, hlocate, hp, hfunction⟩ := exists_commentedLines
  have he : ∃ e : Extent commentedBlock "f",
      "// void f(double x,".toList ∈ e.lines ∧ straysOf "// void f(double x,".toList ≠ [] := by
    refine ⟨⟨[], "// void f".toList, ["double x,".toList, "double* y".toList], [';'], [], ?_, ?_,
      ?_, ?_, ?_, ?_⟩, ?_, ?_⟩
    all_goals decide +kernel
  exact ⟨h, commentedBlock, p, hh, hlocate, hp, hfunction ▸ he⟩

end Header

end DerivativeHeaders
