import DerivativeHeaders.Header.Block
import DerivativeHeaders.Proofs.Outcome

/-! # Texts cut into blocks

The markers cut the lines of a text into a preface and one chunk for each block. What a chunk is
located as depends on its own lines only, apart from their numbers.
-/
namespace DerivativeHeaders

open Outcome

def Line.numbered (n : Nat) (texts : List (List Char)) : List Line :=
  (texts.zipIdx n).map fun x => ⟨x.2, x.1⟩

namespace Line

theorem ofText_eq (cs : List Char) : ofText cs = numbered 1 (Text.lines cs) := rfl

theorem numbered_cons (n : Nat) (text : List Char) (texts : List (List Char)) :
    numbered n (text :: texts) = ⟨n, text⟩ :: numbered (n + 1) texts := rfl

theorem numbered_append (n : Nat) (a b : List (List Char)) :
    numbered n (a ++ b) = numbered n a ++ numbered (n + a.length) b := by
  simp only [numbered, List.zipIdx_append, List.map_append]

theorem map_text_numbered (n : Nat) (texts : List (List Char)) :
    (numbered n texts).map text = texts := by
  induction texts generalizing n with
  | nil => rfl
  | cons t texts ih => rw [numbered_cons, List.map_cons, ih]

theorem forall_mem_numbered {p : List Char → Prop} {texts : List (List Char)}
    (h : ∀ text ∈ texts, p text) (n : Nat) :
    ∀ l ∈ numbered n texts, p l.text := by
  rw [← map_text_numbered n texts] at h
  exact List.forall_mem_map.mp h

end Line

namespace Block

variable {blocks : List Block} {stage : Stage} {texts : List (List Char)}

namespace Stage

def IsOutside : Stage → Prop
  | preface | body .. => True
  | comments .. => False

/-- The block that ends with the next marker. -/
def closed : Stage → List Block
  | body v opened lines => [⟨v, opened, lines.reverse⟩]
  | preface | comments .. => []

end Stage

/-- Variants with the lines of their bodies. -/
abbrev Item := Variant × List (List Char)

def toItem (b : Block) : Item := (b.variant, b.body.map Line.text)

/-- The lines of a block as they stand in a text. -/
structure Chunk where
  opening : List Char
  comments : List (List Char)
  closing : List Char
  body : List (List Char)
  isMarker_opening : isMarker opening
  isMarker_closing : isMarker closing
  plain_comments : ∀ line ∈ comments, isMarker line = false
  plain_body : ∀ line ∈ body, isMarker line = false

namespace Chunk

def lines (x : Chunk) : List (List Char) := x.opening :: (x.comments ++ x.closing :: x.body)

/-- The comments of the chunk spell the variant of the item, and its body is that of the item. -/
structure Spells (x : Chunk) (item : Item) : Prop where
  variant : ∃ comments, x.comments.mapM comment? = some comments ∧
    ∀ opened, readVariant opened comments = .ok item.1
  body : x.body = item.2

end Chunk

/-- A cut of the lines of a text into a preface and chunks. -/
structure IsCut (preface : List (List Char)) (chunks : List Chunk)
    (lines : List (List Char)) : Prop where
  plain_preface : ∀ line ∈ preface, isMarker line = false
  lines : lines = preface ++ chunks.flatMap Chunk.lines

theorem locateFrom_of_plain {preface : List Line} (h : ∀ l ∈ preface, isMarker l.text = false)
    (ls : List Line) :
    locateFrom .preface (preface ++ ls) = locateFrom .preface ls := by
  induction preface with
  | nil => rfl
  | cons l preface ih =>
    obtain ⟨hl, hpreface⟩ := List.forall_mem_cons.mp h
    rw [List.cons_append, locateFrom]
    simp only [hl, Bool.false_eq_true, ↓reduceIte]
    exact ih hpreface

theorem locateFrom_preface (h : ∀ text ∈ texts, isMarker text = false) (number : Nat)
    (ls : List Line) :
    locateFrom .preface (Line.numbered number texts ++ ls) = locateFrom .preface ls :=
  locateFrom_of_plain (Line.forall_mem_numbered h number) ls

theorem locateFrom_opening (h : stage.IsOutside) {text : List Char} (htext : isMarker text)
    (number : Nat)
    (ls : List Line) : locateFrom stage (⟨number, text⟩ :: ls) =
      (stage.closed ++ ·) <$> locateFrom (.comments number []) ls := by
  cases stage with
  | preface =>
    rw [locateFrom]
    simp only [htext, ↓reduceIte, Stage.closed, List.nil_append]
    exact (id_map _).symm
  | comments => cases h
  | body v opened lines =>
    rw [locateFrom]
    simp only [htext, ↓reduceIte, Stage.closed, List.singleton_append]

theorem locateFrom_comments_eq_ok_iff (h : ∀ text ∈ texts, isMarker text = false)
    (opened number : Nat)
    (earlier : List (List Char)) (ls : List Line) :
    locateFrom (.comments opened earlier) (Line.numbered number texts ++ ls) = .ok blocks ↔
      ∃ comments, texts.mapM comment? = some comments ∧
        locateFrom (.comments opened (comments.reverse ++ earlier)) ls = .ok blocks := by
  induction texts generalizing number earlier with
  | nil => simp [Line.numbered]
  | cons text texts ih =>
    have hmarker := h text List.mem_cons_self
    have ih := ih (fun other hother => h other (List.mem_cons_of_mem _ hother)) (number + 1)
    rw [Line.numbered_cons, List.cons_append, locateFrom, List.mapM_cons]
    simp only [hmarker, Bool.false_eq_true, ↓reduceIte]
    cases comment? text with
    | none => simp
    | some comment =>
      rw [ih]
      cases texts.mapM comment? with
      | none => simp
      | some comments => simp

theorem locateFrom_of_body {body : List Line} (h : ∀ l ∈ body, isMarker l.text = false)
    (v : Variant) (opened : Nat)
    (earlier ls : List Line) : locateFrom (.body v opened earlier) (body ++ ls) =
      locateFrom (.body v opened (body.reverse ++ earlier)) ls := by
  induction body generalizing earlier with
  | nil => rfl
  | cons l body ih =>
    obtain ⟨hl, hbody⟩ := List.forall_mem_cons.mp h
    rw [List.cons_append, locateFrom]
    simp only [hl, Bool.false_eq_true, ↓reduceIte, ih hbody, List.reverse_cons, List.append_assoc,
      List.singleton_append]

theorem locateFrom_body (h : ∀ text ∈ texts, isMarker text = false) (v : Variant)
    (opened number : Nat)
    (lines ls : List Line) : locateFrom (.body v opened lines) (Line.numbered number texts ++ ls) =
      locateFrom (.body v opened ((Line.numbered number texts).reverse ++ lines)) ls :=
  locateFrom_of_body (Line.forall_mem_numbered h number) v opened lines ls

theorem readVariant_anywhere {opened : Nat} {comments : List (List Char)} {v : Variant}
    (h : readVariant opened comments = .ok v) (other : Nat) :
    readVariant other comments = .ok v := by
  rw [readVariant] at h ⊢
  split at h
  · exact h
  · cases h

/-- A chunk is located as a block whose variant its comments spell. -/
theorem locateFrom_chunk_eq_ok_iff (x : Chunk) (hstage : stage.IsOutside) (number : Nat)
    (ls : List Line) :
    locateFrom stage (Line.numbered number x.lines ++ ls) = .ok blocks ↔
      ∃ v rest, x.Spells (v, x.body) ∧ blocks = stage.closed ++ rest ∧
        locateFrom (.body v number
          (Line.numbered (number + 1 + x.comments.length + 1) x.body).reverse) ls = .ok rest := by
  have hclosing (comments : List (List Char)) : locateFrom (.comments number comments)
      (⟨number + 1 + x.comments.length, x.closing⟩ ::
        (Line.numbered (number + 1 + x.comments.length + 1) x.body ++ ls)) =
      readVariant number comments.reverse >>= fun v => locateFrom (.body v number
        (Line.numbered (number + 1 + x.comments.length + 1) x.body).reverse) ls := by
    simp only [locateFrom, x.isMarker_closing, ↓reduceIte, locateFrom_body x.plain_body,
      List.append_nil]
  rw [Chunk.lines, Line.numbered_cons,
    List.cons_append, locateFrom_opening hstage x.isMarker_opening, Line.numbered_append,
    List.append_assoc, map_eq_ok]
  simp only [Line.numbered_cons, List.cons_append, locateFrom_comments_eq_ok_iff x.plain_comments,
    hclosing, bind_eq_ok, List.append_nil, List.reverse_reverse]
  constructor
  · rintro ⟨rest, ⟨comments, hcomments, v, hv, hrest⟩, rfl⟩
    exact ⟨v, rest, ⟨⟨comments, hcomments, readVariant_anywhere hv⟩, rfl⟩, rfl, hrest⟩
  · rintro ⟨v, rest, ⟨⟨comments, hcomments, hv⟩, -⟩, rfl, hrest⟩
    exact ⟨rest, ⟨comments, hcomments, v, hv number, hrest⟩, rfl⟩

theorem locateFrom_nil (hstage : stage.IsOutside) : locateFrom stage [] = .ok stage.closed := by
  cases stage with
  | preface => rfl
  | comments => cases hstage
  | body => rfl

/-- Chunks are located as the items that they spell. -/
theorem locateFrom_chunks {chunks : List Chunk} {items : List Item}
    (h : List.Forall₂ Chunk.Spells chunks items)
    (hstage : stage.IsOutside) (number : Nat) :
    ∃ blocks,
      locateFrom stage (Line.numbered number (chunks.flatMap Chunk.lines)) =
        .ok (stage.closed ++ blocks) ∧
      blocks.map toItem = items := by
  -- The stage is arbitrary since a chunk is followed by others from the stage of its own body.
  induction h generalizing stage number with
  | nil =>
    refine ⟨[], ?_, rfl⟩
    rw [List.append_nil]
    exact locateFrom_nil hstage
  | @cons x item chunks items hx _ ih =>
    generalize hn : number + 1 + x.comments.length + 1 = n
    have hopen : (Stage.body item.1 number (Line.numbered n x.body).reverse).IsOutside := trivial
    obtain ⟨blocks, hblocks, heq⟩ := ih hopen (number + x.lines.length)
    refine ⟨⟨item.1, number, Line.numbered n x.body⟩ :: blocks, ?_, ?_⟩
    · rw [List.flatMap_cons, Line.numbered_append, locateFrom_chunk_eq_ok_iff x hstage]
      refine ⟨item.1, _, ⟨hx.variant, rfl⟩, rfl, ?_⟩
      rw [hn, hblocks, Stage.closed, List.reverse_reverse]
      rfl
    · rw [List.map_cons, heq, toItem, Line.map_text_numbered, hx.body]

/-- Chunks that are located spell items. -/
theorem exists_spelled {chunks : List Chunk} (hstage : stage.IsOutside) {number : Nat}
    (h : locateFrom stage (Line.numbered number (chunks.flatMap Chunk.lines)) = .ok blocks) :
    ∃ items, List.Forall₂ Chunk.Spells chunks items := by
  induction chunks generalizing stage number blocks with
  | nil => exact ⟨[], .nil⟩
  | cons x chunks ih =>
    rw [List.flatMap_cons, Line.numbered_append, locateFrom_chunk_eq_ok_iff x hstage] at h
    obtain ⟨v, rest, hx, -, hrest⟩ := h
    obtain ⟨items, hitems⟩ := ih (show (Stage.body ..).IsOutside from trivial) hrest
    exact ⟨(v, x.body) :: items, .cons hx hitems⟩

variable {preface lines : List (List Char)} {chunks : List Chunk}

theorem locate_of_spells {items : List Item} (hcut : IsCut preface chunks lines)
    (h : List.Forall₂ Chunk.Spells chunks items) :
    ∃ blocks, locate (Line.numbered 1 lines) = .ok blocks ∧ blocks.map toItem = items := by
  rw [locate, hcut.lines, Line.numbered_append, locateFrom_preface hcut.plain_preface]
  exact locateFrom_chunks h (show Stage.preface.IsOutside from trivial) _

/-- The blocks of a cut text are the items that its chunks spell. -/
theorem spells_of_locate (hcut : IsCut preface chunks lines)
    (h : locate (Line.numbered 1 lines) = .ok blocks) :
    List.Forall₂ Chunk.Spells chunks (blocks.map toItem) := by
  have hchunks := h
  rw [locate, hcut.lines, Line.numbered_append, locateFrom_preface hcut.plain_preface] at hchunks
  obtain ⟨items, hitems⟩ := exists_spelled (show Stage.preface.IsOutside from trivial) hchunks
  obtain ⟨blocks', hblocks', rfl⟩ := locate_of_spells hcut hitems
  rw [h] at hblocks'
  cases hblocks'
  exact hitems

namespace IsCut

theorem cons_plain {text : List Char} (h : IsCut preface chunks lines)
    (htext : isMarker text = false) :
    IsCut (text :: preface) chunks (text :: lines) := by
  refine ⟨fun line hline => ?_, ?_⟩
  · rcases List.mem_cons.mp hline with rfl | hline
    · exact htext
    · exact h.plain_preface line hline
  · rw [h.lines, List.cons_append]

/-- What stands before the first chunk is the body of a chunk before that. -/
theorem cons_chunk {opening closing : List Char} {comments : List (List Char)}
    (h : IsCut preface chunks lines)
    (hopening : isMarker opening) (hcomments : ∀ line ∈ comments, isMarker line = false)
    (hclosing : isMarker closing) :
    IsCut []
      (⟨opening, comments, closing, preface, hopening, hclosing, hcomments, h.plain_preface⟩ ::
        chunks)
      (opening :: (comments ++ closing :: lines)) := by
  obtain ⟨_, rfl⟩ := h
  refine ⟨nofun, ?_⟩
  rw [List.nil_append, List.flatMap_cons, Chunk.lines, List.cons_append, List.append_assoc,
    List.cons_append]

end IsCut

/-- The lines that are left at a stage are cut, after the comments and the marker that close an
opened one. -/
def IsCutFrom (lines : List (List Char)) : Stage → Prop
  | .preface | .body .. => ∃ preface chunks, IsCut preface chunks lines
  | .comments .. =>
    ∃ comments closing rest, (∀ line ∈ comments, isMarker line = false) ∧ isMarker closing ∧
      lines = comments ++ closing :: rest ∧ ∃ preface chunks, IsCut preface chunks rest

theorem exists_isCut_opening {opened : Nat} {earlier : List (List Char)} {text : List Char}
    (htext : isMarker text)
    (h : IsCutFrom lines (.comments opened earlier)) :
    ∃ preface chunks, IsCut preface chunks (text :: lines) := by
  obtain ⟨comments, closing, rest, hcomments, hclosing, rfl, preface, chunks, hcut⟩ := h
  exact ⟨[], _, hcut.cons_chunk htext hcomments hclosing⟩

/-- Lines that can be located are cut by their markers. -/
theorem isCutFrom_of_locateFrom {ls : List Line} (h : locateFrom stage ls = .ok blocks) :
    IsCutFrom (ls.map Line.text) stage := by
  induction ls generalizing stage blocks with
  | nil =>
    cases stage with
    | comments => cases h
    | preface | body => exact ⟨[], [], nofun, rfl⟩
  | cons l ls ih =>
    rw [List.map_cons]
    cases stage with
    | preface =>
      rw [locateFrom] at h
      cases hmarker : isMarker l.text with
      | true =>
        rw [hmarker] at h
        exact exists_isCut_opening hmarker (ih h)
      | false =>
        rw [hmarker] at h
        obtain ⟨preface, chunks, hcut⟩ := ih h
        exact ⟨_, chunks, hcut.cons_plain hmarker⟩
    | comments opened earlier =>
      rw [locateFrom] at h
      cases hmarker : isMarker l.text with
      | true =>
        simp only [hmarker, ↓reduceIte, bind_eq_ok] at h
        obtain ⟨v, -, hrest⟩ := h
        exact ⟨[], l.text, _, nofun, hmarker, rfl, ih hrest⟩
      | false =>
        simp only [hmarker, Bool.false_eq_true, ↓reduceIte] at h
        cases hcomment : comment? l.text with
        | none => simp [hcomment] at h
        | some comment =>
          rw [hcomment] at h
          obtain ⟨comments, closing, rest, hcomments, hclosing, heq, hrest⟩ := ih h
          exact ⟨l.text :: comments, closing, rest, List.forall_mem_cons.mpr ⟨hmarker, hcomments⟩,
            hclosing, congrArg (l.text :: ·) heq, hrest⟩
    | body v opened earlier =>
      rw [locateFrom] at h
      cases hmarker : isMarker l.text with
      | true =>
        simp only [hmarker, ↓reduceIte, map_eq_ok] at h
        obtain ⟨rest, hrest, -⟩ := h
        exact exists_isCut_opening hmarker (ih hrest)
      | false =>
        simp only [hmarker, Bool.false_eq_true, ↓reduceIte] at h
        obtain ⟨preface, chunks, hcut⟩ := ih h
        exact ⟨_, chunks, hcut.cons_plain hmarker⟩

theorem exists_isCut (h : locate (Line.numbered 1 lines) = .ok blocks) :
    ∃ preface chunks, IsCut preface chunks lines := by
  have hcut := isCutFrom_of_locateFrom h
  rwa [Line.map_text_numbered] at hcut

end Block

end DerivativeHeaders
