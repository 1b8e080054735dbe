import DerivativeHeaders.Proofs.Header.Print
import DerivativeHeaders.Proofs.Header.Renumber
import Mathlib.Logic.Relation

/-! # Blanks around lines, and blank lines

Lines are trimmed before they are looked at, so white space at their ends changes nothing at all.
Blank lines in the bodies of blocks only move the lines after them.
-/
namespace DerivativeHeaders

open Outcome

theorem isMarker_trim (text : List Char) : isMarker (Text.trim text) = isMarker text := by
  rw [isMarker, isMarker, Text.trim_trim]

theorem comment?_trim (text : List Char) : comment? (Text.trim text) = comment? text := by
  rw [comment?, comment?, Text.trim_trim]

namespace Line

theorem trimmed_trimmed (l : Line) : l.trimmed.trimmed = l.trimmed := by
  simp only [trimmed, Text.trim_trim]

theorem map_trimmed_numbered (n : Nat) (texts : List (List Char)) :
    (numbered n texts).map trimmed = numbered n (texts.map Text.trim) := by
  induction texts generalizing n with
  | nil => rfl
  | cons t texts ih => rw [numbered_cons, List.map_cons, ih, List.map_cons, numbered_cons, trimmed]

def hasText (l : Line) : Bool := !l.text.isEmpty

/-- The lines that are not blank, trimmed. -/
def compact (ls : List Line) : List Line := (ls.map trimmed).filter hasText

theorem map_trimmed_map_trimmed (ls : List Line) :
    (ls.map trimmed).map trimmed = ls.map trimmed := by
  rw [List.map_map]
  exact List.map_congr_left fun l _ => l.trimmed_trimmed

theorem compact_trimmed (ls : List Line) : compact (ls.map trimmed) = compact ls := by
  rw [compact, map_trimmed_map_trimmed, compact]

theorem map_trimmed_compact (ls : List Line) : (compact ls).map trimmed = compact ls := by
  have htrimmed : ∀ l ∈ compact ls, l.trimmed = id l := by
    intro l hl
    obtain ⟨l, -, rfl⟩ := List.mem_map.mp (List.mem_of_mem_filter hl)
    exact l.trimmed_trimmed
  rw [List.map_congr_left htrimmed, List.map_id]

theorem compact_reverse (ls : List Line) : compact ls.reverse = (compact ls).reverse := by
  rw [compact, List.map_reverse, List.filter_reverse, compact]

theorem compact_cons_blank {l : Line} (h : Text.trim l.text = []) (ls : List Line) :
    compact (l :: ls) = compact ls := by
  have hblank : ¬ l.trimmed.hasText := by
    rw [hasText, trimmed_text, h]
    exact Bool.false_ne_true
  rw [compact, List.map_cons, List.filter_cons_of_neg hblank, compact]

end Line

namespace Prototype

open Line

theorem fieldLines?_filter (ls : List Line) : fieldLines? (ls.filter hasText) = fieldLines? ls := by
  induction ls with
  | nil => rfl
  | cons l ls ih =>
    obtain ⟨n, text⟩ := l
    cases text with
    | nil =>
      -- A blank line closes no prototype and has no field.
      have hblank : fieldLines? (⟨n, []⟩ :: ls) = (([] : List Line) ++ ·) <$> fieldLines? ls := rfl
      rw [List.filter_cons_of_neg Bool.false_ne_true, ih, hblank]
      exact (id_map _).symm
    | cons c text => rw [List.filter_cons_of_pos rfl, fieldLines?, fieldLines?, ih]

theorem ofLines_filter (first : Line) (rest : List Line) :
    ofLines first (rest.filter hasText) = ofLines first rest := by
  simp only [ofLines, fieldLines?, fieldLines?_filter]

theorem dropWhile_filter (ls : List Line) :
    (ls.filter hasText).dropWhile (fun l => !startsPrototype l.text) =
      (ls.dropWhile fun l => !startsPrototype l.text).filter hasText := by
  induction ls with
  | nil => rfl
  | cons l ls ih =>
    obtain ⟨n, text⟩ := l
    cases text with
    | nil => rw [List.filter_cons_of_neg Bool.false_ne_true, ih, List.dropWhile_cons_of_pos rfl]
    | cons c text =>
      rw [List.filter_cons_of_pos rfl, List.dropWhile_cons, List.dropWhile_cons]
      split
      · exact ih
      · rw [List.filter_cons_of_pos rfl]

end Prototype

/-- The block with its body trimmed and without blank lines. -/
def Block.compact (b : Block) : Block := { b with body := Line.compact b.body }

/-- Neither blanks around the lines of a block nor blank lines in it change how its prototype is
read. -/
theorem Prototype.ofBlock_compact (b : Block) : ofBlock b.compact = ofBlock b := by
  rw [ofBlock_eq, ofBlock_eq, Block.compact, Line.map_trimmed_compact, Line.compact,
    dropWhile_filter]
  cases hlines : (b.body.map Line.trimmed).dropWhile fun l => !startsPrototype l.text with
  | nil => rfl
  | cons first rest =>
    have hfirst :=
      List.head?_dropWhile_not (fun l : Line => !startsPrototype l.text) (b.body.map Line.trimmed)
    rw [hlines] at hfirst
    have htext : first.hasText := by
      obtain ⟨n, text⟩ := first
      cases text with
      | nil => cases hfirst
      | cons c text => rfl
    rw [List.filter_cons_of_pos htext]
    exact ofLines_filter first rest

theorem Header.ofBlocks_compact (blocks : List Block) :
    ofBlocks (blocks.map Block.compact) = ofBlocks blocks := by
  cases blocks with
  | nil => rfl
  | cons first rest =>
    have hvariants : (rest.map Block.compact).map Block.variant = rest.map Block.variant :=
      List.map_map
    have hread (s : Signature) (l : Ledger) :
        (rest.map Block.compact).foldlM s.readBlock l = rest.foldlM s.readBlock l := by
      rw [List.foldlM_map]
      congr 1
      funext l b
      rw [Signature.readBlock, Signature.readBlock, Prototype.ofBlock_compact]
      rfl
    rw [List.map_cons, ofBlocks, ofBlocks, Prototype.ofBlock_compact]
    simp only [hvariants, hread]
    rfl

/-- Lines are read alike if they are located as the same blocks up to blanks and blank lines. -/
theorem Header.ofLines_congr {ls ls' : List Line}
    (h : List.map Block.compact <$> Block.locate ls' = List.map Block.compact <$> Block.locate ls) :
    ofLines ls' = ofLines ls := by
  have hcompact (ls : List Line) :
      ofLines ls = List.map Block.compact <$> Block.locate ls >>= ofBlocks := by
    rw [bind_map_left, ofLines, funext ofBlocks_compact]
  rw [hcompact, hcompact, h]

/-- White space at the ends of lines is not looked at. -/
theorem Header.ofLines_trimmed (ls : List Line) : ofLines (ls.map Line.trimmed) = ofLines ls := by
  refine ofLines_congr ?_
  have hlocate :=
    Block.locateFrom_map id Line.trimmed (fun _ => rfl) (fun l => isMarker_trim l.text)
    (fun l => comment?_trim l.text) .preface ls
  have hcompact : Block.compact ∘ Block.map id Line.trimmed = Block.compact := by
    funext b
    exact congrArg (Block.mk b.variant b.opened) (Line.compact_trimmed b.body)
  rw [renumber_id] at hlocate
  have hlocate : Block.locate (ls.map Line.trimmed) = List.map (Block.map id Line.trimmed) <$>
      Block.locate ls := hlocate
  rw [hlocate, ← comp_map, List.map_comp_map, hcompact]

namespace Block

variable {v : Variant} {opened : Nat} {lines lines' pre : List Line} {blank : Line}

theorem map_compact_cons {b b' : Block} {x x' : Except Fault (List Block)}
    (hb : compact b' = compact b)
    (hx : List.map compact <$> x' = List.map compact <$> x) :
    List.map compact <$> (b' :: ·) <$> x' = List.map compact <$> (b :: ·) <$> x := by
  have hcons (b : Block) (x : Except Fault (List Block)) :
      List.map compact <$> (b :: ·) <$> x = (compact b :: ·) <$> List.map compact <$> x := by
    rw [← comp_map, ← comp_map]
    rfl
  rw [hcons, hcons, hb, hx]

/-- What blocks are located as depends on the collected lines that are not blank only. -/
theorem locateFrom_body_compact (h : Line.compact lines' = Line.compact lines) (ls : List Line) :
    List.map compact <$> locateFrom (.body v opened lines') ls =
      List.map compact <$> locateFrom (.body v opened lines) ls := by
  have hblock {lines lines' : List Line} (h : Line.compact lines' = Line.compact lines) :
      compact ⟨v, opened, lines'.reverse⟩ = compact ⟨v, opened, lines.reverse⟩ := by
    simp only [compact, Line.compact_reverse, h]
  induction ls generalizing lines lines' with
  | nil => exact congrArg (fun b => Except.ok [b]) (hblock h)
  | cons l ls ih =>
    rw [locateFrom, locateFrom]
    split
    · exact map_compact_cons (hblock h) rfl
    · refine ih ?_
      simp only [Line.compact, List.map_cons, List.filter_cons] at h ⊢
      rw [h]

/-- After lines with this many markers, a reader stands in the body of a block. -/
def Stage.IsBodyAfter (markers : Nat) : Stage → Prop
  | preface => 0 < markers ∧ Even markers
  | comments .. => Odd markers
  | body .. => Even markers

/-- A blank line in the body of a block changes the body only. -/
theorem locateFrom_insert {stage : Stage}
    (hstage : stage.IsBodyAfter ((pre.map Line.text).countP isMarker))
    (hblank : Text.trim blank.text = []) (post : List Line) :
    List.map compact <$> locateFrom stage (pre ++ blank :: post) =
      List.map compact <$> locateFrom stage (pre ++ post) := by
  have hmarker : isMarker blank.text = false := by
    rw [isMarker, hblank]
    rfl
  induction pre generalizing stage with
  | nil =>
    cases stage with
    | preface => exact absurd hstage.1 (lt_irrefl 0)
    | comments => exact absurd hstage Nat.not_odd_zero
    | body v opened lines =>
      rw [List.nil_append, List.nil_append, locateFrom, hmarker]
      exact locateFrom_body_compact (Line.compact_cons_blank hblank lines) post
  | cons l pre ih =>
    rw [List.map_cons] at hstage
    rw [List.cons_append, List.cons_append]
    cases hl : isMarker l.text with
    | true =>
      rw [List.countP_cons_of_pos hl] at hstage
      cases stage with
      | preface =>
        rw [locateFrom, locateFrom, hl]
        exact ih (Nat.even_add_one.mp hstage.2 |> Nat.not_even_iff_odd.mp)
      | comments opened texts =>
        simp only [locateFrom, hl, ↓reduceIte]
        cases readVariant opened texts.reverse with
        | error fault => rfl
        | ok v =>
          exact @ih (.body v opened []) (Nat.odd_add_one.mp hstage |> Nat.not_odd_iff_even.mp)
      | body v opened lines =>
        simp only [locateFrom, hl, ↓reduceIte]
        refine map_compact_cons rfl (ih ?_)
        exact Nat.not_even_iff_odd.mp (Nat.even_add_one.mp hstage)
    | false =>
      rw [List.countP_cons_of_neg (by simp [hl])] at hstage
      cases stage with
      | preface =>
        rw [locateFrom, locateFrom, hl]
        exact ih hstage
      | comments opened texts =>
        simp only [locateFrom, hl, Bool.false_eq_true, ↓reduceIte]
        cases comment? l.text with
        | none => rfl
        | some comment => exact ih hstage
      | body v opened lines =>
        simp only [locateFrom, hl, Bool.false_eq_true, ↓reduceIte]
        exact ih hstage

end Block

namespace Header

/-- A blank line is put between the second marker of a pair and the next marker or the end. -/
inductive InsertsBlank : List (List Char) → List (List Char) → Prop
  | insert (pre post : List (List Char)) (blank : List Char) (hmarkers : 0 < pre.countP isMarker)
      (heven : Even (pre.countP isMarker)) (hblank : Text.trim blank = []) :
      InsertsBlank (pre ++ post) (pre ++ blank :: post)

/-- The lines after the blank line move on by one, and so do their numbers in faults. -/
theorem InsertsBlank.ofLines_eq {texts texts' : List (List Char)} (h : InsertsBlank texts texts') :
    ∃ k, ofLines (Line.numbered 1 texts') =
      renumber (fun n => if n ≤ k then n else n + 1) (ofLines (Line.numbered 1 texts)) := by
  obtain ⟨pre, post, blank, hmarkers, heven, hblank⟩ := h
  refine ⟨pre.length, ?_⟩
  let g n := if n ≤ pre.length then n else n + 1
  have hpre : (Line.numbered 1 pre).map (Line.renumber g) = Line.numbered 1 pre :=
    Line.map_renumber_numbered fun i hi => if_pos (by omega)
  have hpost : (Line.numbered (1 + pre.length) post).map (Line.renumber g) =
      Line.numbered (1 + pre.length + 1) post :=
    Line.map_renumber_numbered fun i _ => (if_neg (by omega)).trans (by omega)
  have hstage :
      Block.Stage.preface.IsBodyAfter (((Line.numbered 1 pre).map Line.text).countP isMarker) := by
    rw [Line.map_text_numbered]
    exact ⟨hmarkers, heven⟩
  rw [← ofLines_renumber, Line.numbered_append, Line.numbered_append, List.map_append, hpre, hpost,
    Line.numbered_cons]
  exact ofLines_congr (Block.locateFrom_insert hstage hblank _)

/-- Lines are read alike with and without blank lines in the bodies of blocks. -/
theorem ofLines_of_eqvGen {texts texts' : List (List Char)}
    (h : Relation.EqvGen InsertsBlank texts texts') (header : Header) :
    ofLines (Line.numbered 1 texts') = .ok header ↔
      ofLines (Line.numbered 1 texts) = .ok header := by
  induction h with
  | rel texts texts' h =>
    obtain ⟨k, hk⟩ := h.ofLines_eq
    rw [hk, renumber_eq_ok]
  | refl => rfl
  | symm _ _ _ ih => exact ih.symm
  | trans _ _ _ _ _ ih ih' => exact ih'.trans ih

/-- A text is read alike with other white space at the ends of its lines, and as the same header
with other blank lines in the bodies of its blocks. -/
theorem ofText_spaced (text text' : String) :
    ((Text.lines text.toList).map Text.trim = (Text.lines text'.toList).map Text.trim →
      ofText text' = ofText text) ∧
      (Relation.EqvGen InsertsBlank (Text.lines text.toList) (Text.lines text'.toList) →
        ∀ h, ofText text' = .ok h ↔ ofText text = .ok h) := by
  simp only [ofText_eq_ofLines]
  constructor
  · intro h
    rw [← ofLines_trimmed, ← ofLines_trimmed (Line.numbered 1 (Text.lines text.toList)),
      Line.map_trimmed_numbered, Line.map_trimmed_numbered, h]
  · exact ofLines_of_eqvGen

def linesText (texts : List (List Char)) : String :=
  String.ofList (['\n'].intercalate (texts ++ [[]]))

/-- A block with further lines inside of its prototype and after it. -/
def blockTexts (inside after : List (List Char)) : List (List Char) :=
  (markerLines .plain).map String.toList ++ "void f(double x,".toList ::
  (inside ++ "double* y);".toList :: after)

/-- Tabs and carriage returns at the ends of lines, and a blank line moved into the prototype. -/
theorem ofText_spaced_blockTexts :
    ofText (linesText ((blockTexts [] []).map fun text => '\t' :: text ++ [' ', '\r'])) =
      ofText (linesText (blockTexts [] [])) ∧
      ∀ h, ofText (linesText (blockTexts [[' ']] [])) = .ok h ↔
      ofText (linesText (blockTexts [] [[]])) = .ok h := by
  constructor
  · refine (ofText_spaced _ _).1 ?_
    rw [linesText, linesText, String.toList_ofList, String.toList_ofList]
    decide +kernel
  · refine (ofText_spaced _ _).2 ?_
    have hlines : Text.lines (linesText (blockTexts [] [[]])).toList = blockTexts [] [[]] := by
      rw [linesText, String.toList_ofList]
      decide +kernel
    have hlines' : Text.lines (linesText (blockTexts [[' ']] [])).toList =
        blockTexts [[' ']] [] := by
      rw [linesText, String.toList_ofList]
      decide +kernel
    rw [hlines, hlines']
    have hdelete : InsertsBlank (blockTexts [] []) (blockTexts [] [[]]) :=
      .insert (blockTexts [] []) [] [] (by decide +kernel) (by decide +kernel) rfl
    have hinsert : InsertsBlank (blockTexts [] []) (blockTexts [[' ']] []) :=
      .insert ((blockTexts [] []).take 7) ((blockTexts [] []).drop 7) [' '] (by decide +kernel)
        (by decide +kernel) rfl
    exact .trans _ _ _ (.symm _ _ (.rel _ _ hdelete)) (.rel _ _ hinsert)

end Header

end DerivativeHeaders
