import DerivativeHeaders.Proofs.Header.Chunk
import DerivativeHeaders.Proofs.Header.Prototype
import DerivativeHeaders.Proofs.Text.Lines

/-! # Blocks located again

The blocks that a header prints are found in its text, each with its variant and with the lines
of its prototype.
-/
namespace DerivativeHeaders

open Text

theorem isMarker_marker : isMarker marker.toList := by decide

theorem comment?_textLines (v : Variant) : ∀ line ∈ v.textLines,
    isMarker (commentStart ++ line).toList = false ∧
      comment? (commentStart ++ line).toList = some line.toList := by
  obtain ⟨_ | _, _ | _⟩ := v <;> decide +kernel

theorem oneLine_markerLines (v : Variant) : ∀ line ∈ Header.markerLines v, OneLine line.toList := by
  simp only [OneLine]
  obtain ⟨_ | _, _ | _⟩ := v <;> decide +kernel

theorem Variant.ofText_textLines (v : Variant) :
    ofText true (String.ofList (['\n'].intercalate (v.textLines.map String.toList))) = .ok v := by
  rw [ofText, String.toList_ofList]
  obtain ⟨_ | _, _ | _⟩ := v <;> rfl

namespace Block

theorem readVariant_textLines (v : Variant) (opened : Nat) :
    readVariant opened (v.textLines.map String.toList) = .ok v := by
  rw [readVariant, Variant.ofText_textLines]

/-- The printed lines of an item. -/
def Item.lines (x : Item) : List (List Char) := (Header.markerLines x.1).map String.toList ++ x.2

/-- The chunk that an item is printed as. -/
def Item.chunk (x : Item) (h : ∀ line ∈ x.2, isMarker line = false) : Chunk where
  opening := marker.toList
  comments := x.1.textLines.map fun line => (commentStart ++ line).toList
  closing := marker.toList
  body := x.2
  isMarker_opening := isMarker_marker
  isMarker_closing := isMarker_marker
  plain_comments := List.forall_mem_map.mpr fun line hline => (comment?_textLines x.1 line hline).1
  plain_body := h

namespace Item

variable {x : Item} {items : List Item}

theorem lines_chunk (h : ∀ line ∈ x.2, isMarker line = false) : (x.chunk h).lines = x.lines := by
  simp only [Chunk.lines, chunk, lines, Header.markerLines, List.cons_append, List.map_cons,
    List.map_append, List.map_map, List.map_nil, List.append_assoc, List.nil_append]
  rfl

theorem mapM_comment?_textLines {lines : List String}
    (h : ∀ line ∈ lines, comment? (commentStart ++ line).toList = some line.toList) :
    (lines.map fun line => (commentStart ++ line).toList).mapM comment? =
      some (lines.map String.toList) := by
  induction lines with
  | nil => rfl
  | cons line lines ih =>
    rw [List.map_cons, List.mapM_cons, h line List.mem_cons_self,
      ih fun other hother => h other (List.mem_cons_of_mem _ hother)]
    rfl

theorem spells_chunk (h : ∀ line ∈ x.2, isMarker line = false) : (x.chunk h).Spells x :=
  ⟨⟨_, mapM_comment?_textLines fun line hline => (comment?_textLines x.1 line hline).2,
    readVariant_textLines x.1⟩, rfl⟩

def chunks (items : List Item) (h : ∀ x ∈ items, ∀ line ∈ x.2, isMarker line = false) :
    List Chunk :=
  items.pmap chunk h

theorem isCut_chunks (h : ∀ x ∈ items, ∀ line ∈ x.2, isMarker line = false) :
    IsCut [] (chunks items h) (items.flatMap lines) := by
  refine ⟨nofun, ?_⟩
  rw [chunks, List.nil_append]
  induction items with
  | nil => rfl
  | cons x items ih =>
    rw [List.pmap_cons, List.flatMap_cons, List.flatMap_cons, lines_chunk, ih]

theorem spells_chunks (h : ∀ x ∈ items, ∀ line ∈ x.2, isMarker line = false) :
    List.Forall₂ Chunk.Spells (chunks items h) items := by
  rw [chunks]
  induction items with
  | nil => exact .nil
  | cons x items ih => exact .cons (spells_chunk _) (ih _)

end Item

end Block

end DerivativeHeaders
