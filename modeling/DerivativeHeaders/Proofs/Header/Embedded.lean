import DerivativeHeaders.Library
import DerivativeHeaders.Proofs.Header.Region
import DerivativeHeaders.Proofs.Header.RoundTrip

/-! # Printed text in a file

Lines before the first marker change nothing in what a text is read as. So the text of a header is
read alike with the preamble of a library in front of it, and it is what stands there from the first
marker on.
-/
namespace DerivativeHeaders

open Outcome Prototype Text

namespace Header

variable {h : Header} {printed text : String} {blocks : List Block}

/-- A text that a header is printed in, with nothing but lines without markers before it. -/
structure IsPrintedIn (h : Header) (printed text : String) : Prop where
  region : blockRegion? text.toList = some printed.toList
  written : ∃ blocks, Block.locate (Line.ofText text.toList) = .ok blocks ∧
    List.Forall₂ h.IsWrittenAs h.variants (blocks.map Block.toItem)

theorem exists_marker (hc : h.IsChecked) (hprint : h.print = .ok printed) :
    ∃ rest, printed.toList = marker.toList ++ '\n' :: rest := by
  simp only [print, printLines, bind_eq_ok, pure_eq_ok, mapM_eq_ok_iff] at hprint
  obtain ⟨_, ⟨texts, htexts, rfl⟩, rfl⟩ := hprint
  obtain ⟨vs, hplain⟩ := List.head?_eq_some_iff.mp hc.ordered.plainFirst
  rw [hplain] at htexts
  obtain ⟨first, others, hfirst, -, rfl⟩ := List.forall₂_cons_left_iff.mp htexts
  obtain ⟨prototype, -, hlines⟩ := bind_eq_ok.mp hfirst
  obtain rfl := pure_eq_ok.mp hlines
  obtain ⟨more, hmore, hne⟩ : ∃ more,
      ((markerLines .plain ++ prototype ++ [""]) :: others).flatten = marker :: more ∧
      more.map String.toList ≠ [] := ⟨_, rfl, by simp⟩
  refine ⟨['\n'].intercalate (more.map String.toList), ?_⟩
  rw [hmore, String.toList_intercalate, List.map_cons, List.intercalate_cons_of_ne_nil hne,
    List.append_assoc]
  rfl

theorem IsPrintedIn.append {front : String} (h' : h.IsPrintedIn printed text)
    (hcomplete : IsComplete front.toList)
    (hplain : ∀ line ∈ lines front.toList, isMarker line = false) :
    h.IsPrintedIn printed (front ++ text) := by
  obtain ⟨blocks, hlocate, hwritten⟩ := h'.written
  refine ⟨?_, blocks.map (Block.renumber (· + (lines front.toList).length)), ?_, ?_⟩
  · rw [String.toList_append, blockRegion?_append hcomplete hplain, h'.region]
  · rw [String.toList_append, Line.ofText_eq, lines_of_isComplete hcomplete,
      Block.locate_preface hplain, ← Line.ofText_eq, hlocate]
    rfl
  · have hitems : Block.toItem ∘ Block.renumber (· + (lines front.toList).length) = Block.toItem :=
      funext (Block.toItem_renumber _)
    rw [List.map_map, hitems]
    exact hwritten

/-- A header is printed in its own text, and in the file of a library. -/
theorem exists_isPrintedIn (hc : h.IsChecked) (hw : h.AvoidsKeywords) :
    ∃ printed, h.print = .ok printed ∧
      h.IsPrintedIn printed printed ∧ ∃ text, Library.fileText h = .ok text ∧
      h.IsPrintedIn printed text := by
  obtain ⟨printed, blocks, hprint, hlocate, hwritten⟩ := exists_written hc hw
  obtain ⟨rest, hrest⟩ := exists_marker hc hprint
  have hregion : blockRegion? printed.toList = some printed.toList := by
    rw [hrest, blockRegion?_cons (by decide), if_pos isMarker_marker]
  have hself : h.IsPrintedIn printed printed := ⟨hregion, blocks, hlocate, hwritten⟩
  have hfile : h.IsPrintedIn printed (Library.preamble ++ "\n\n" ++ printed) :=
    hself.append (.inr (by decide)) (by decide)
  refine ⟨printed, hprint, hself, _, ?_, hfile⟩
  rw [Library.fileText, hprint]
  rfl

theorem IsPrintedIn.ofText_eq (h' : h.IsPrintedIn printed text) (hc : h.IsChecked)
    (hname : isReserved h.name = false) :
    ofText text = .ok h := by
  obtain ⟨blocks, hlocate, hwritten⟩ := h'.written
  exact ofText_eq_ok_iff.mpr
    ⟨blocks, hlocate, ofBlocks_eq_ok hc (isBlockOf_of_written ⟨hc.name, hname⟩ hwritten)⟩

/-- The first block of the text opens with the name of the function, so a keyword for that name
makes it unreadable. -/
theorem IsPrintedIn.ofText_eq_error (h' : h.IsPrintedIn printed text) (hc : h.IsChecked)
    (hname : isReserved h.name) :
    ∃ n, ofText text = .error (.line n .noOpening) := by
  obtain ⟨blocks, hlocate, hwritten⟩ := h'.written
  obtain ⟨vs, hplain⟩ := List.head?_eq_some_iff.mp hc.ordered.plainFirst
  rw [hplain] at hwritten
  obtain ⟨item, items, ⟨full, ⟨hv, lines, ⟨slots, fields, rfl, hslots, -⟩, hlines⟩, hv', more, -,
      hbody⟩, -, hitems⟩ :=
    List.forall₂_cons_left_iff.mp hwritten
  obtain ⟨first, rest, rfl, rfl, -⟩ := List.map_eq_cons_iff.mp hitems
  rw [hlines] at hbody
  obtain ⟨n, hn⟩ := ofBlock_of_isReserved hc.name hname hslots hbody
  have hfirst : first.variant = .plain := hv'.trans hv
  refine ⟨n, ?_⟩
  rw [ofText, hlocate]
  simp only [ofBlocks, bind, Except.bind, hfirst, hn, ne_eq, not_true_eq_false, ↓reduceIte]

end Header

end DerivativeHeaders
