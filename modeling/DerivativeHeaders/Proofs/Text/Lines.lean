import DerivativeHeaders.Proofs.Text.Solid
import DerivativeHeaders.Text.Lines

/-! # Lines of a joined text

A text is cut after its line feeds. Lines without line feeds and carriage returns are the lines of
the text that joins them.
-/
namespace DerivativeHeaders.Text

theorem segments_append {line : List Char} (h : '\n' ∉ line) (rest : List Char) :
    segments (line ++ '\n' :: rest) = (line ++ ['\n']) :: segments rest := by
  induction line with
  | nil => rfl
  | cons c line ih =>
    obtain ⟨hc, hline⟩ := not_or.mp (List.mem_cons.not.mp h)
    rw [List.cons_append, segments, if_neg (Ne.symm hc), ih hline]
    rfl

theorem segments_of_not_mem {cs : List Char} (h : '\n' ∉ cs) (hne : cs ≠ []) :
    segments cs = [cs] := by
  induction cs with
  | nil => exact absurd rfl hne
  | cons c cs ih =>
    obtain ⟨hc, hcs⟩ := not_or.mp (List.mem_cons.not.mp h)
    rw [segments, if_neg (Ne.symm hc)]
    cases cs with
    | nil => rfl
    | cons d cs => rw [ih hcs (List.cons_ne_nil _ _)]

/-- Induction on the lines of a text: it has no line feed, or a first line and a text after that. -/
theorem lines_induction {motive : List Char → Prop} (last : ∀ cs, '\n' ∉ cs → motive cs)
    (line : ∀ first rest, '\n' ∉ first → motive rest → motive (first ++ '\n' :: rest))
    (cs : List Char) : motive cs := by
  by_cases h : '\n' ∈ cs
  · obtain ⟨first, rest, hcs, hfirst⟩ := List.eq_append_cons_of_mem h
    have hshorter : rest.length < cs.length := by
      rw [hcs, List.length_append, List.length_cons]
      omega
    rw [hcs]
    exact line first rest hfirst (lines_induction last line rest)
  · exact last cs h
termination_by cs.length

/-- Nothing, or whole lines with their line feeds. -/
def IsComplete (cs : List Char) : Prop := cs = [] ∨ cs.getLast? = some '\n'

theorem IsComplete.eq_nil {cs : List Char} (h : IsComplete cs) (hcs : '\n' ∉ cs) : cs = [] :=
  h.resolve_right fun hlast => hcs (List.mem_of_getLast? hlast)

theorem isComplete_append {first rest : List Char} :
    IsComplete (first ++ '\n' :: rest) ↔ IsComplete rest := by
  rw [IsComplete, IsComplete, List.getLast?_append_of_ne_nil _ (List.cons_ne_nil _ _)]
  cases rest with
  | nil => simp
  | cons c rest => simp

theorem dropTerminator_append {line : List Char} (h : OneLine line) :
    dropTerminator (line ++ ['\n']) = line := by
  have hreturn : line.getLast? ≠ some '\r' := fun hlast => h.2 (List.mem_of_getLast? hlast)
  simp [dropTerminator, hreturn]

/-- The terminator of a line is blank. -/
theorem trim_dropTerminator (segment : List Char) :
    trim (dropTerminator segment) = trim segment := by
  rw [dropTerminator]
  split
  · rename_i hfeed
    have hsegment := List.dropLast_append_getLast? '\n' hfeed
    have htrim : trim segment.dropLast = trim segment := by
      conv_rhs => rw [← hsegment]
      exact (trim_append_blank _ (List.forall_mem_singleton.mpr rfl)).symm
    dsimp only
    split
    · rename_i hreturn
      have hblank : ∀ c ∈ ['\r'], isBlank c := List.forall_mem_singleton.mpr rfl
      rw [← htrim, ← trim_append_blank _ hblank, List.dropLast_append_getLast? '\r' hreturn]
    · exact htrim
  · rfl

theorem lines_cons {line : List Char} (h : '\n' ∉ line) (rest : List Char) :
    lines (line ++ '\n' :: rest) = dropTerminator (line ++ ['\n']) :: lines rest := by
  rw [lines, segments_append h, List.map_cons, lines]

theorem lines_of_not_mem {cs : List Char} (h : '\n' ∉ cs) (hne : cs ≠ []) : lines cs = [cs] := by
  have hlast : cs.getLast? ≠ some '\n' := fun hlast => h (List.mem_of_getLast? hlast)
  rw [lines, segments_of_not_mem h hne, List.map_singleton, dropTerminator, if_neg hlast]

theorem segments_of_isComplete {front : List Char} (h : IsComplete front) (cs : List Char) :
    segments (front ++ cs) = segments front ++ segments cs := by
  induction front using lines_induction with
  | last front hfront =>
    rw [h.eq_nil hfront]
    rfl
  | line first rest hfirst ih =>
    rw [List.append_assoc, List.cons_append, segments_append hfirst, ih (isComplete_append.mp h),
      segments_append hfirst, List.cons_append]

theorem lines_of_isComplete {front : List Char} (h : IsComplete front) (cs : List Char) :
    lines (front ++ cs) = lines front ++ lines cs := by
  rw [lines, segments_of_isComplete h, List.map_append, lines, lines]

theorem length_segments (cs : List Char) : (segments cs).length = (lines cs).length := by
    rw [lines, List.length_map]

theorem length_lines_eq_zero_iff {cs : List Char} : (lines cs).length = 0 ↔ cs = [] := by
  constructor
  · intro h
    rw [← length_segments, List.length_eq_zero_iff] at h
    rw [← flatten_segments cs, h, List.flatten_nil]
  · rintro rfl
    rfl

theorem lines_append {line : List Char} (h : OneLine line) (rest : List Char) :
    lines (line ++ '\n' :: rest) = line :: lines rest := by
  rw [lines_cons h.1, dropTerminator_append h]

theorem intercalate_cons (line : List Char) (ls : List (List Char)) :
    ['\n'].intercalate (line :: ls ++ [[]]) = line ++ '\n' :: ['\n'].intercalate (ls ++ [[]]) := by
  have hne : ls ++ [[]] ≠ [] := List.append_ne_nil_of_right_ne_nil _ (List.cons_ne_nil _ _)
  rw [List.cons_append, List.intercalate_cons_of_ne_nil hne, List.append_assoc]
  rfl

/-- Joining lines and a last empty one, then cutting, gives the lines. -/
theorem lines_intercalate {ls : List (List Char)} (h : ∀ line ∈ ls, OneLine line) :
    lines (['\n'].intercalate (ls ++ [[]])) = ls := by
  induction ls with
  | nil => rfl
  | cons line ls ih =>
    have hline := h line List.mem_cons_self
    have ih := ih fun other hother => h other (List.mem_cons_of_mem _ hother)
    rw [intercalate_cons, lines_append hline, ih]

/-- Whole lines that end in line feeds alone. -/
structure EndsPlainly (cs : List Char) : Prop where
  complete : IsComplete cs
  noReturn : '\r' ∉ cs

theorem endsPlainly_append {line rest : List Char} (h : OneLine line) :
    EndsPlainly (line ++ '\n' :: rest) ↔ EndsPlainly rest := by
  have hreturn : '\r' ∉ line ++ '\n' :: rest ↔ '\r' ∉ rest := by simp [h.2]
  exact ⟨fun h => ⟨isComplete_append.mp h.complete, hreturn.mp h.noReturn⟩,
    fun h => ⟨isComplete_append.mpr h.complete, hreturn.mpr h.noReturn⟩⟩

theorem endsPlainly_intercalate {ls : List (List Char)} (h : ∀ line ∈ ls, OneLine line) :
    EndsPlainly (['\n'].intercalate (ls ++ [[]])) := by
  induction ls with
  | nil => exact ⟨.inl rfl, List.not_mem_nil⟩
  | cons line ls ih =>
    rw [intercalate_cons, endsPlainly_append (h line List.mem_cons_self)]
    exact ih fun other hother => h other (List.mem_cons_of_mem _ hother)

/-- A plain line is its segment but for the line feed. -/
theorem EndsPlainly.segment_eq {cs : List Char} (h : EndsPlainly cs) {segment : List Char}
    (hsegment : segment ∈ segments cs) : segment = dropTerminator segment ++ ['\n'] := by
  induction cs using lines_induction with
  | last cs hfeed =>
    rw [h.complete.eq_nil hfeed] at hsegment
    cases hsegment
  | line first rest hfirst ih =>
    have hone : OneLine first := ⟨hfirst, fun hmem => h.noReturn (List.mem_append_left _ hmem)⟩
    rw [segments_append hfirst] at hsegment
    rcases List.mem_cons.mp hsegment with rfl | hsegment
    · rw [dropTerminator_append hone]
    · exact ih ((endsPlainly_append hone).mp h) hsegment

end DerivativeHeaders.Text
