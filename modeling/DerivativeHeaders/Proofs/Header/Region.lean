import DerivativeHeaders.Proofs.Header.Renumber
import DerivativeHeaders.Proofs.Text.Lines

/-! # Headers in larger texts

The region of a header reaches from the first marker line of a text to the end of the text. The
lines before it only move its lines.
-/
namespace DerivativeHeaders

open Outcome Text

variable {cs before region : List Char}

/-- The terminator of a line is blank, so a marker is the same with it and without it. -/
theorem isMarker_append_feed (line : List Char) : isMarker (line ++ ['\n']) = isMarker line := by
  rw [isMarker, trim_append_blank line (List.forall_mem_singleton.mpr rfl), isMarker]

theorem isMarker_dropTerminator (segment : List Char) :
    isMarker (dropTerminator segment) = isMarker segment := by
  rw [isMarker, trim_dropTerminator, isMarker]

theorem blockRegion?_cons {line : List Char} (hline : '\n' ∉ line) (cs : List Char) :
    blockRegion? (line ++ '\n' :: cs) = if isMarker line then some (line ++ '\n' :: cs)
      else blockRegion? cs := by
  have hsegments := flatten_segments (line ++ '\n' :: cs)
  rw [segments_append hline] at hsegments
  rw [blockRegion?, segments_append hline, List.dropWhile_cons, isMarker_append_feed]
  cases isMarker line with
  | true => exact congrArg some hsegments
  | false => rfl

theorem blockRegion?_of_not_mem (h : '\n' ∉ cs) :
    blockRegion? cs = if isMarker cs then some cs else none := by
  by_cases hcs : cs = []
  · rw [hcs]
    rfl
  · rw [blockRegion?, segments_of_not_mem h hcs, List.dropWhile_cons]
    cases isMarker cs with
    | true => exact congrArg some (List.append_nil cs)
    | false => rfl

/-- Whole lines without a marker do not belong to the region. -/
theorem blockRegion?_append (hbefore : IsComplete before)
    (h : ∀ line ∈ lines before, isMarker line = false) :
    blockRegion? (before ++ cs) = blockRegion? cs := by
  induction before using lines_induction with
  | last before hfeed =>
    rw [hbefore.eq_nil hfeed]
    rfl
  | line first rest hfirst ih =>
    rw [lines_cons hfirst] at h
    obtain ⟨hmarker, hrest⟩ := List.forall_mem_cons.mp h
    rw [isMarker_dropTerminator, isMarker_append_feed] at hmarker
    rw [List.append_assoc, List.cons_append, blockRegion?_cons hfirst, hmarker]
    exact ih (isComplete_append.mp hbefore) hrest

theorem blockRegion?_eq_none_iff :
    blockRegion? cs = none ↔ ∀ line ∈ lines cs, isMarker line = false := by
  induction cs using lines_induction with
  | last cs hfeed =>
    rw [blockRegion?_of_not_mem hfeed]
    by_cases hcs : cs = []
    · rw [hcs]
      exact ⟨fun _ => nofun, fun _ => rfl⟩
    · rw [lines_of_not_mem hfeed hcs, List.forall_mem_singleton]
      cases isMarker cs <;> simp
  | line first rest hfirst ih =>
    rw [blockRegion?_cons hfirst, lines_cons hfirst, List.forall_mem_cons, isMarker_dropTerminator,
      isMarker_append_feed, ← ih]
    cases isMarker first <;> simp

/-- A cut of a text at the start of its first marker line. -/
structure IsRegion (text before region : List Char) : Prop where
  text : text = before ++ region
  complete : IsComplete before
  plain : ∀ line ∈ lines before, isMarker line = false
  marker : ∃ line rest, lines region = line :: rest ∧ isMarker line

theorem blockRegion?_of_marker (h : ∃ line rest, lines cs = line :: rest ∧ isMarker line) :
    blockRegion? cs = some cs := by
  obtain ⟨line, rest, hlines, hmarker⟩ := h
  induction cs using lines_induction with
  | last cs hfeed =>
    have hcs : cs ≠ [] := by
      rintro rfl
      cases hlines
    rw [lines_of_not_mem hfeed hcs] at hlines
    obtain ⟨rfl, -⟩ := List.cons.inj hlines
    rw [blockRegion?_of_not_mem hfeed, if_pos hmarker]
  | line first rest hfirst _ =>
    rw [lines_cons hfirst] at hlines
    obtain ⟨rfl, -⟩ := List.cons.inj hlines
    rw [isMarker_dropTerminator, isMarker_append_feed] at hmarker
    rw [blockRegion?_cons hfirst, if_pos hmarker]

theorem isRegion_of_marker (h : ∃ line rest, lines cs = line :: rest ∧ isMarker line) :
    IsRegion cs [] cs :=
  ⟨rfl, .inl rfl, nofun, h⟩

theorem blockRegion?_eq_some_iff :
    blockRegion? cs = some region ↔ ∃ before, IsRegion cs before region := by
  constructor
  · intro h
    induction cs using lines_induction with
    | last cs hfeed =>
      rw [blockRegion?_of_not_mem hfeed] at h
      obtain ⟨hmarker, hsome⟩ := Option.ite_none_right_eq_some.mp h
      obtain rfl := Option.some.inj hsome
      have hcs : cs ≠ [] := by
        rintro rfl
        cases hmarker
      exact ⟨[], isRegion_of_marker ⟨cs, [], lines_of_not_mem hfeed hcs, hmarker⟩⟩
    | line first rest hfirst ih =>
      rw [blockRegion?_cons hfirst] at h
      have hsegment : isMarker (dropTerminator (first ++ ['\n'])) = isMarker first := by
        rw [isMarker_dropTerminator, isMarker_append_feed]
      cases hmarker : isMarker first with
      | true =>
        rw [if_pos hmarker] at h
        obtain rfl := Option.some.inj h
        exact ⟨[], isRegion_of_marker ⟨_, lines rest, lines_cons hfirst rest,
          hsegment.trans hmarker⟩⟩
      | false =>
        rw [if_neg (by simp [hmarker])] at h
        obtain ⟨before, rfl, hcomplete, hplain, hregion⟩ := ih h
        refine ⟨first ++ '\n' :: before, by simp, isComplete_append.mpr hcomplete, ?_, hregion⟩
        rw [lines_cons hfirst]
        exact List.forall_mem_cons.mpr ⟨hsegment.trans hmarker, hplain⟩
  · rintro ⟨before, rfl, hcomplete, hplain, hmarker⟩
    rw [blockRegion?_append hcomplete hplain, blockRegion?_of_marker hmarker]

/-- Lines before the first marker move the lines after them. -/
theorem Block.locate_preface {before : List (List Char)}
    (h : ∀ text ∈ before, isMarker text = false)
    (texts : List (List Char)) : locate (Line.numbered 1 (before ++ texts)) =
      List.map (renumber (· + before.length)) <$>
      Outcome.renumber (· + before.length) (locate (Line.numbered 1 texts)) := by
  have hmoved : (Line.numbered 1 texts).map (Line.renumber (· + before.length)) =
      Line.numbered (1 + before.length) texts :=
    Line.map_renumber_numbered fun i _ => Nat.add_right_comm ..
  rw [← locate_renumber, hmoved, Line.numbered_append]
  exact locateFrom_preface h 1 _

namespace Header

theorem ofLines_preface {before : List (List Char)} (h : ∀ text ∈ before, isMarker text = false)
    (texts : List (List Char)) :
    ofLines (Line.numbered 1 (before ++ texts)) =
      renumber (· + before.length) (ofLines (Line.numbered 1 texts)) :=
  bind_map_renumber (Block.locate_preface h texts) (ofBlocks_renumber _)

theorem ofText_append {before : String} (hcomplete : IsComplete before.toList)
    (hplain : ∀ line ∈ lines before.toList, isMarker line = false) (text : String) :
    ofText (before ++ text) = renumber (· + (lines before.toList).length) (ofText text) := by
  rw [ofText_eq_ofLines, String.toList_append, lines_of_isComplete hcomplete,
    ofLines_preface hplain, ofText_eq_ofLines]

/-- A text is read like its region, with the lines moved by those before the region. -/
theorem ofText_region (text : String) :
    (blockRegion? text.toList = none → ofText text = .error .noDefaultVariant) ∧
      (∀ region, blockRegion? text.toList = some region → ∃ before,
        IsRegion text.toList before region ∧ blockRegion? region = some region ∧
        ofText text = renumber (· + (lines before).length) (ofText (String.ofList region))) ∧
      ∀ front : String, IsComplete front.toList →
        (∀ line ∈ lines front.toList, isMarker line = false) →
        blockRegion? (front ++ text).toList = blockRegion? text.toList ∧
        ∀ h, ofText (front ++ text) = .ok h ↔ ofText text = .ok h := by
  refine ⟨fun hnone => ?_, fun region hregion => ?_,
    fun front hcomplete hplain => ⟨?_, fun h => ?_⟩⟩
  · have hpreface := ofLines_preface (blockRegion?_eq_none_iff.mp hnone) []
    rw [List.append_nil] at hpreface
    exact hpreface
  · obtain ⟨before, hregion⟩ := blockRegion?_eq_some_iff.mp hregion
    refine ⟨before, hregion, blockRegion?_of_marker hregion.marker, ?_⟩
    have htext : text = String.ofList before ++ String.ofList region := by
      rw [← String.ofList_append, ← hregion.text, String.ofList_toList]
    rw [htext, ofText_append, String.toList_ofList]
    · rw [String.toList_ofList]
      exact hregion.complete
    · rw [String.toList_ofList]
      exact hregion.plain
  · rw [String.toList_append, blockRegion?_append hcomplete hplain]
  · rw [ofText_append hcomplete hplain, renumber_eq_ok]

/-- An open marker after a line that ends in a carriage return, and a text without a marker. -/
theorem ofText_region_pragma :
    ofText "/* é */\n" = .error .noDefaultVariant ∧
      (∃ before, IsRegion "#pragma once\r\n\t//=====[Option]=====\n//".toList before
        "\t//=====[Option]=====\n//".toList ∧
        blockRegion? "\t//=====[Option]=====\n//".toList =
          some "\t//=====[Option]=====\n//".toList ∧
        ofText "#pragma once\r\n\t//=====[Option]=====\n//" =
          renumber (· + (lines before).length)
            (ofText (String.ofList "\t//=====[Option]=====\n//".toList))) ∧
      blockRegion? ("#pragma once\r\n" ++ "\t//=====[Option]=====").toList =
        blockRegion? "\t//=====[Option]=====".toList ∧
      ∀ h, ofText ("#pragma once\r\n" ++ "\t//=====[Option]=====") = .ok h ↔
        ofText "\t//=====[Option]=====" = .ok h :=
  ⟨(ofText_region _).1 (by decide +kernel), (ofText_region _).2.1 _ (by decide +kernel),
    (ofText_region _).2.2 _ (.inr (by decide +kernel)) (by decide +kernel)⟩

end Header

end DerivativeHeaders
