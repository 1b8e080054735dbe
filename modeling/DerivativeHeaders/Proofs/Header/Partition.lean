import DerivativeHeaders.Proofs.Header.Chunk
import Mathlib.Data.List.Nodup
import Mathlib.Data.List.Perm.Basic

/-! # Lines of blocks

The markers of a text pair up, and each pair has comments inside of it and a body after it. Together
with what stands before the first marker these are all lines of the text, each of them once. A text
that is not located has an earliest pair that offends.
-/
namespace DerivativeHeaders

open Outcome

section Spans

variable {α : Type} {p : α → Prop}

/-- The list is empty, or its first element has the property. -/
def Starts (p : α → Prop) (xs : List α) : Prop := ∀ x ∈ xs.head?, p x

theorem starts_cons (x : α) (xs : List α) (h : p x) : Starts p (x :: xs) := by
  intro y hy
  cases hy
  exact h

theorem exists_span (p : α → Prop) (xs : List α) :
    ∃ front rest, xs = front ++ rest ∧ (∀ x ∈ front, ¬ p x) ∧ Starts p rest := by
  induction xs with
  | nil => exact ⟨[], [], rfl, nofun, nofun⟩
  | cons x xs ih =>
    by_cases hx : p x
    · exact ⟨[], x :: xs, rfl, nofun, starts_cons x xs hx⟩
    · obtain ⟨front, rest, rfl, hfront, hrest⟩ := ih
      exact ⟨x :: front, rest, rfl, List.forall_mem_cons.mpr ⟨hx, hfront⟩, hrest⟩

/-- A list is cut before the first element with the property in one way. -/
theorem span_unique {a a' b b' : List α} (ha : ∀ x ∈ a, ¬ p x) (ha' : ∀ x ∈ a', ¬ p x)
    (hb : Starts p b) (hb' : Starts p b') (h : a ++ b = a' ++ b') : a = a' ∧ b = b' := by
  induction a generalizing a' with
  | nil =>
    cases a' with
    | nil => exact ⟨rfl, h⟩
    | cons x a' =>
      rw [List.nil_append] at h
      exact absurd (hb x (by rw [h]; rfl)) (ha' x List.mem_cons_self)
  | cons x a ih =>
    cases a' with
    | nil =>
      rw [List.nil_append] at h
      exact absurd (hb' x (by rw [← h]; rfl)) (ha x List.mem_cons_self)
    | cons x' a' =>
      obtain ⟨rfl, htail⟩ := List.cons_eq_cons.mp h
      obtain ⟨rfl, hrest⟩ :=
        ih (List.forall_mem_cons.mp ha).2 (List.forall_mem_cons.mp ha').2 htail
      exact ⟨rfl, hrest⟩

end Spans

/-- The line is a comment with this text after the slashes. -/
def Line.IsComment (l : Line) (text : List Char) : Prop :=
  Text.trim l.text = commentStart.toList ++ text

theorem comment?_eq_some_iff {l : Line} {text : List Char} :
    comment? l.text = some text ↔ l.IsComment text :=
  Text.dropStart?_eq_some

theorem Line.nodup_ofText (cs : List Char) : (Line.ofText cs).Nodup := by
  have hnumbers : (Line.ofText cs).map Line.number = List.range' 1 (Text.lines cs).length := by
    rw [Line.ofText, List.map_map]
    exact List.zipIdx_map_snd 1 _
  refine List.Nodup.of_map Line.number ?_
  rw [hnumbers]
  exact List.nodup_range'

namespace Block

/-- A pair of markers, the lines between them, and the lines up to the next pair. -/
structure Section where
  opening : Line
  comments : List Line
  closing : Line
  body : List Line

namespace Section

def lines (x : Section) : List Line := x.opening :: (x.comments ++ x.closing :: x.body)

def markers (x : Section) : List Line := [x.opening, x.closing]

/-- No other line of the section is a marker. -/
structure IsPaired (x : Section) : Prop where
  opening : isMarker x.opening.text
  comments : ∀ l ∈ x.comments, isMarker l.text = false
  closing : isMarker x.closing.text
  body : ∀ l ∈ x.body, isMarker l.text = false

/-- The lines between the markers are comments, and their texts, one below the other, are read as
the variant. -/
def Spells (x : Section) (v : Variant) : Prop :=
  ∃ texts, List.Forall₂ Line.IsComment x.comments texts ∧
    Variant.ofText true (String.ofList (['\n'].intercalate texts)) = .ok v

/-- The section is located as the block. -/
structure Makes (x : Section) (b : Block) : Prop where
  spells : x.Spells b.variant
  opened : b.opened = x.opening.number
  body : b.body = x.body

end Section

/-- The markers cut the lines into a preface and sections, as far as the lines are not left over. -/
structure IsPartition (preface : List Line) (sections : List Section)
    (rest lines : List Line) : Prop where
  plain_preface : ∀ l ∈ preface, isMarker l.text = false
  paired : ∀ x ∈ sections, x.IsPaired
  lines : lines = preface ++ (sections.flatMap Section.lines ++ rest)

/-- What is wrong with a pair of markers, on the lines from its first marker. -/
inductive Offends : List Line → Fault → Prop
  | interrupted {opening line : Line} {comments rest : List Line} (hopening : isMarker opening.text)
      (hcomments : ∀ l ∈ comments, isMarker l.text = false ∧ ∃ text, l.IsComment text)
      (hline : isMarker line.text = false) (hnone : ∀ text, ¬ line.IsComment text) :
      Offends (opening :: (comments ++ line :: rest))
        (.line line.number (.interruptedMarker opening.number))
  | unclosed {opening : Line} {comments : List Line} (hopening : isMarker opening.text)
      (hcomments : ∀ l ∈ comments, isMarker l.text = false ∧ ∃ text, l.IsComment text) :
      Offends (opening :: comments) (.line opening.number .openMarker)
  | misspelled {opening closing : Line} {comments rest : List Line} {texts : List (List Char)}
      {cause : Variant.TextFault} (hopening : isMarker opening.text)
      (hcomments : ∀ l ∈ comments, isMarker l.text = false)
      (htexts : List.Forall₂ Line.IsComment comments texts) (hclosing : isMarker closing.text)
      (hcause : Variant.ofText true (String.ofList (['\n'].intercalate texts)) = .error cause) :
      Offends (opening :: (comments ++ closing :: rest)) (.line opening.number (.variantText cause))

theorem locateFrom_of_comments {comments : List Line} {texts : List (List Char)}
    (h : ∀ l ∈ comments, isMarker l.text = false)
    (htexts : List.Forall₂ Line.IsComment comments texts) (opened : Nat)
    (earlier : List (List Char)) (ls : List Line) :
    locateFrom (.comments opened earlier) (comments ++ ls) =
      locateFrom (.comments opened (texts.reverse ++ earlier)) ls := by
  induction htexts generalizing earlier with
  | nil => rfl
  | @cons l text comments texts hl _ ih =>
    obtain ⟨hplain, hrest⟩ := List.forall_mem_cons.mp h
    rw [List.cons_append, locateFrom]
    simp only [hplain, Bool.false_eq_true, ↓reduceIte, comment?_eq_some_iff.mpr hl, ih hrest,
      List.reverse_cons, List.append_assoc, List.singleton_append]

/-- A section leaves its block open, which is closed with the next marker. -/
theorem locateFrom_of_section {stage : Stage} (hstage : stage.IsOutside) {x : Section} {b : Block}
    (hpaired : x.IsPaired)
    (hx : x.Makes b) (ls : List Line) : locateFrom stage (x.lines ++ ls) =
      (stage.closed ++ ·) <$> locateFrom (.body b.variant b.opened b.body.reverse) ls := by
  obtain ⟨texts, htexts, hvariant⟩ := hx.spells
  have hread : readVariant x.opening.number texts = .ok b.variant := by rw [readVariant, hvariant]
  have hclosing :
      locateFrom (.comments x.opening.number texts.reverse) (x.closing :: (x.body ++ ls)) =
      locateFrom (.body b.variant x.opening.number x.body.reverse) ls := by
    rw [locateFrom, if_pos hpaired.closing, List.reverse_reverse, hread]
    exact (locateFrom_of_body hpaired.body ..).trans (by rw [List.append_nil])
  rw [Section.lines, List.cons_append, List.append_assoc, List.cons_append,
    locateFrom_opening hstage hpaired.opening, locateFrom_of_comments hpaired.comments htexts,
    List.append_nil, hclosing, hx.opened, hx.body]

/-- From every stage outside of a pair the lines are located like this, after the block that ends
with them. -/
def IsLocatedAs (lines : List Line) (outcome : Except Fault (List Block)) : Prop :=
  ∀ stage : Stage, stage.IsOutside → locateFrom stage lines = (stage.closed ++ ·) <$> outcome

theorem isLocatedAs_nil : IsLocatedAs [] (.ok []) := by
  intro stage hstage
  rw [locateFrom_nil hstage]
  exact congrArg Except.ok (List.append_nil _).symm

theorem IsLocatedAs.sections {rest : List Line} {outcome : Except Fault (List Block)}
    (hrest : IsLocatedAs rest outcome)
    {sections : List Section} {blocks : List Block} (hpaired : ∀ x ∈ sections, x.IsPaired)
    (h : List.Forall₂ Section.Makes sections blocks) :
    IsLocatedAs (sections.flatMap Section.lines ++ rest) ((blocks ++ ·) <$> outcome) := by
  induction h with
  | nil =>
    intro stage hstage
    rw [List.flatMap_nil, List.nil_append, hrest stage hstage]
    exact congrArg _ (id_map outcome).symm
  | @cons x b sections blocks hx _ ih =>
    obtain ⟨hfirst, hpaired⟩ := List.forall_mem_cons.mp hpaired
    intro stage hstage
    have hbody := ih hpaired (.body b.variant b.opened b.body.reverse) trivial
    rw [List.flatMap_cons, List.append_assoc, locateFrom_of_section hstage hfirst hx, hbody,
      Stage.closed, List.reverse_reverse]
    cases outcome <;> rfl

/-- A pair that offends is where locating stops. -/
theorem Offends.isLocatedAs {lines : List Line} {fault : Fault} (h : Offends lines fault) :
    IsLocatedAs lines (.error fault) := by
  intro stage hstage
  have hstop {opening : Line} {rest : List Line} (hopening : isMarker opening.text)
      (hrest : locateFrom (.comments opening.number []) rest = .error fault) :
      locateFrom stage (opening :: rest) = (stage.closed ++ ·) <$> .error fault := by
    rw [locateFrom_opening hstage hopening, hrest]
  cases h with
  | @interrupted _ line _ _ hopening hcomments hline hnone =>
    refine hstop hopening ?_
    obtain ⟨texts, htexts⟩ := exists_forall₂ fun l hl => (hcomments l hl).2
    have hcomment : comment? line.text = none := by
      rw [Option.eq_none_iff_forall_ne_some]
      exact fun text htext => hnone text (comment?_eq_some_iff.mp htext)
    rw [locateFrom_of_comments (fun l hl => (hcomments l hl).1) htexts, locateFrom]
    simp only [hline, Bool.false_eq_true, ↓reduceIte, hcomment]
  | @unclosed opening comments hopening hcomments =>
    refine hstop hopening ?_
    obtain ⟨texts, htexts⟩ := exists_forall₂ fun l hl => (hcomments l hl).2
    rw [← List.append_nil comments, locateFrom_of_comments (fun l hl => (hcomments l hl).1) htexts]
    rfl
  | misspelled hopening hcomments htexts hclosing hcause =>
    refine hstop hopening ?_
    rw [locateFrom_of_comments hcomments htexts, locateFrom, if_pos hclosing, List.append_nil,
      List.reverse_reverse, readVariant, hcause]
    rfl

variable {lines rest preface preface' : List Line} {sections sections' : List Section}
  {blocks : List Block}

theorem IsPartition.locate_eq (h : IsPartition preface sections rest lines)
    (hblocks : List.Forall₂ Section.Makes sections blocks)
    {outcome : Except Fault (List Block)} (hrest : IsLocatedAs rest outcome) :
    locate lines = (blocks ++ ·) <$> outcome := by
  have hstage : Stage.preface.IsOutside := trivial
  rw [locate, h.lines, locateFrom_of_plain h.plain_preface,
    hrest.sections h.paired hblocks _ hstage]
  exact id_map _

/-- All lines are a partition up to a pair that offends, if there is one. -/
theorem exists_partition (lines : List Line) :
    ∃ preface sections blocks rest, IsPartition preface sections rest lines ∧
      List.Forall₂ Section.Makes sections blocks ∧ (rest = [] ∨ ∃ fault, Offends rest fault) := by
  obtain ⟨preface, rest, hlines, hpreface, hrest⟩ := exists_span (fun l => isMarker l.text) lines
  have hpreface : ∀ l ∈ preface, isMarker l.text = false :=
    fun l hl => Bool.eq_false_iff.mpr (hpreface l hl)
  cases rest with
  | nil => exact ⟨preface, [], [], [], ⟨hpreface, nofun, hlines⟩, .nil, .inl rfl⟩
  | cons opening more =>
    have hopening : isMarker opening.text := hrest opening rfl
    have hstop {fault : Fault} (h : Offends (opening :: more) fault) :
        ∃ preface sections blocks rest, IsPartition preface sections rest lines ∧
        List.Forall₂ Section.Makes sections blocks ∧
          (rest = [] ∨ ∃ fault, Offends rest fault) :=
      ⟨preface, [], [], _, ⟨hpreface, nofun, hlines⟩, .nil, .inr ⟨fault, h⟩⟩
    obtain ⟨comments, after, rfl, hcomments, hafter⟩ :=
      exists_span (fun l => isMarker l.text ∨ ∀ text, ¬ l.IsComment text) more
    have hcomments : ∀ l ∈ comments, isMarker l.text = false ∧ ∃ text, l.IsComment text := by
      intro l hl
      have hl := hcomments l hl
      push Not at hl
      exact ⟨Bool.eq_false_iff.mpr hl.1, hl.2⟩
    cases after with
    | nil =>
      rw [List.append_nil] at hstop
      exact hstop (.unclosed hopening hcomments)
    | cons line after =>
      have hline : isMarker line.text ∨ ∀ text, ¬ line.IsComment text := hafter line rfl
      cases hmarker : isMarker line.text with
      | false =>
        have hnone : ∀ text, ¬ line.IsComment text :=
          hline.resolve_left (Bool.eq_false_iff.mp hmarker)
        exact hstop (.interrupted hopening hcomments hmarker hnone)
      | true =>
        have hplain : ∀ l ∈ comments, isMarker l.text = false := fun l hl => (hcomments l hl).1
        obtain ⟨texts, htexts⟩ := exists_forall₂ fun l hl => (hcomments l hl).2
        cases hvariant : Variant.ofText true (String.ofList (['\n'].intercalate texts)) with
        | error cause => exact hstop (.misspelled hopening hplain htexts hmarker hvariant)
        | ok v =>
          -- What follows the pair is a partition by itself, and its preface is the body of the
          -- pair.
          have hshorter : after.length < lines.length := by
            simp only [hlines, List.length_append, List.length_cons]
            omega
          obtain ⟨body, sections, blocks, rest, hpartition, hblocks, hend⟩ := exists_partition after
          refine ⟨preface, ⟨opening, comments, line, body⟩ :: sections,
            ⟨v, opening.number, body⟩ :: blocks, rest,
            ⟨hpreface, ?_, ?_⟩, .cons ⟨⟨texts, htexts, hvariant⟩, rfl, rfl⟩ hblocks, hend⟩
          · exact List.forall_mem_cons.mpr ⟨⟨hopening, hplain, hmarker, hpartition.plain_preface⟩,
              hpartition.paired⟩
          · rw [hlines, hpartition.lines]
            simp only [List.flatMap_cons, Section.lines, List.cons_append, List.append_assoc]
termination_by lines.length

/-- Lines are located as blocks exactly if the markers cut all of them into sections that make these
blocks. -/
theorem locate_eq_ok_iff : locate lines = .ok blocks ↔
    ∃ preface sections, IsPartition preface sections [] lines ∧
      List.Forall₂ Section.Makes sections blocks := by
  constructor
  · intro h
    obtain ⟨preface, sections, blocks', rest, hpartition, hblocks, rfl | ⟨fault, hfault⟩⟩ :=
      exists_partition lines
    · have hlocate := hpartition.locate_eq hblocks isLocatedAs_nil
      rw [h] at hlocate
      obtain rfl : blocks = blocks' := (Except.ok.inj hlocate).trans (List.append_nil _)
      exact ⟨preface, sections, hpartition, hblocks⟩
    · cases h.symm.trans (hpartition.locate_eq hblocks hfault.isLocatedAs)
  · rintro ⟨preface, sections, hpartition, hblocks⟩
    exact (hpartition.locate_eq hblocks isLocatedAs_nil).trans
      (congrArg Except.ok (List.append_nil _))

/-- Locating stops at the first pair that offends. -/
theorem locate_eq_error_iff {fault : Fault} : locate lines = .error fault ↔
    ∃ preface sections blocks rest, IsPartition preface sections rest lines ∧
      List.Forall₂ Section.Makes sections blocks ∧ Offends rest fault := by
  constructor
  · intro h
    obtain ⟨preface, sections, blocks, rest, hpartition, hblocks, rfl | ⟨fault', hfault⟩⟩ :=
      exists_partition lines
    · cases h.symm.trans (hpartition.locate_eq hblocks isLocatedAs_nil)
    · cases h.symm.trans (hpartition.locate_eq hblocks hfault.isLocatedAs)
      exact ⟨preface, sections, blocks, rest, hpartition, hblocks, hfault⟩
  · rintro ⟨preface, sections, blocks, rest, hpartition, hblocks, hfault⟩
    exact hpartition.locate_eq hblocks hfault.isLocatedAs

theorem starts_flatMap (h : ∀ x ∈ sections, x.IsPaired) :
    Starts (fun l => isMarker l.text) (sections.flatMap Section.lines) := by
  cases sections with
  | nil => exact nofun
  | cons x sections => exact starts_cons _ _ (List.forall_mem_cons.mp h).1.opening

theorem sections_unique (h : ∀ x ∈ sections, x.IsPaired) (h' : ∀ x ∈ sections', x.IsPaired)
    (hlines : sections.flatMap Section.lines = sections'.flatMap Section.lines) :
    sections = sections' := by
  have hplain {lines : List Line} (hlines : ∀ l ∈ lines, isMarker l.text = false) :
      ∀ l ∈ lines, ¬ isMarker l.text :=
    fun l hl => Bool.eq_false_iff.mp (hlines l hl)
  induction sections generalizing sections' with
  | nil =>
    cases sections' with
    | nil => rfl
    | cons y sections' => cases hlines
  | cons x sections ih =>
    cases sections' with
    | nil => cases hlines
    | cons y sections' =>
      obtain ⟨hx, hsections⟩ := List.forall_mem_cons.mp h
      obtain ⟨hy, hsections'⟩ := List.forall_mem_cons.mp h'
      simp only [List.flatMap_cons, Section.lines, List.cons_append, List.append_assoc,
        List.cons_eq_cons] at hlines
      obtain ⟨hopening, hlines⟩ := hlines
      obtain ⟨hcomments, hlines⟩ :=
        span_unique (hplain hx.comments) (hplain hy.comments) (starts_cons _ _ hx.closing)
        (starts_cons _ _ hy.closing) hlines
      obtain ⟨hclosing, hlines⟩ := List.cons_eq_cons.mp hlines
      obtain ⟨hbody, hlines⟩ :=
        span_unique (hplain hx.body) (hplain hy.body) (starts_flatMap hsections)
        (starts_flatMap hsections') hlines
      obtain rfl := ih hsections hsections' hlines
      cases x
      cases y
      cases hopening
      cases hcomments
      cases hclosing
      cases hbody
      rfl

theorem flatMap_body (h : List.Forall₂ Section.Makes sections blocks) :
    blocks.flatMap Block.body = sections.flatMap Section.body := by
  induction h with
  | nil => rfl
  | cons hx _ ih => rw [List.flatMap_cons, List.flatMap_cons, hx.body, ih]

namespace IsPartition

/-- Lines have one partition. -/
theorem unique (h : IsPartition preface sections [] lines)
    (h' : IsPartition preface' sections' [] lines) :
    preface = preface' ∧ sections = sections' := by
  have hlines := h.lines.symm.trans h'.lines
  rw [List.append_nil, List.append_nil] at hlines
  obtain ⟨hpreface, hsections⟩ :=
    span_unique (fun l hl => Bool.eq_false_iff.mp (h.plain_preface l hl))
    (fun l hl => Bool.eq_false_iff.mp (h'.plain_preface l hl)) (starts_flatMap h.paired)
    (starts_flatMap h'.paired) hlines
  exact ⟨hpreface, sections_unique h.paired h'.paired hsections⟩

/-- The markers among the lines are those of the pairs. -/
theorem filter_isMarker (h : IsPartition preface sections [] lines) :
    (lines.filter fun l => isMarker l.text) = sections.flatMap Section.markers := by
  have hplain {lines : List Line} (hlines : ∀ l ∈ lines, isMarker l.text = false) :
      (lines.filter fun l => isMarker l.text) = [] :=
    List.filter_eq_nil_iff.mpr fun l hl => Bool.eq_false_iff.mp (hlines l hl)
  rw [h.lines, List.append_nil, List.filter_append, hplain h.plain_preface, List.nil_append,
    List.filter_flatMap]
  refine List.flatMap_congr fun x hx => ?_
  have hpaired := h.paired x hx
  simp only [Section.lines, Section.markers, List.filter_cons, List.filter_append, hpaired.opening,
    hpaired.closing, hplain hpaired.comments, hplain hpaired.body, ↓reduceIte, List.nil_append]

/-- The lines are those of the preface, the markers, the comments and the bodies of the blocks. -/
theorem perm (h : IsPartition preface sections [] lines)
    (hblocks : List.Forall₂ Section.Makes sections blocks) :
    lines.Perm (preface ++ (sections.flatMap Section.markers ++
      (sections.flatMap Section.comments ++ blocks.flatMap Block.body))) := by
  have hsection (x : Section) : x.lines.Perm (x.markers ++ (x.comments ++ x.body)) :=
    List.perm_middle.cons _
  rw [h.lines, List.append_nil, flatMap_body hblocks]
  refine List.Perm.append_left _ ?_
  refine (List.Perm.flatMap_left _ fun x _ => hsection x).trans ?_
  refine (List.flatMap_append_perm ..).symm.trans (List.Perm.append_left _ ?_)
  exact (List.flatMap_append_perm ..).symm

end IsPartition

/-- A text is located as blocks exactly if its markers pair up and the lines inside of each pair are
comments that spell a variant; a block has the lines between its pair and the next one. Each line of
the text is then one line of the preface, of the markers, of the comments or of the bodies, and
there is one way to cut the text like this. Another text has a first pair that offends, and the
fault is at the line inside of this pair that is no comment or at the first marker of it. -/
theorem locate_partitions (cs : List Char) :
    (∀ blocks, locate (Line.ofText cs) = .ok blocks ↔ ∃ preface sections,
        IsPartition preface sections [] (Line.ofText cs) ∧
        List.Forall₂ Section.Makes sections blocks) ∧
      (∀ preface sections blocks, IsPartition preface sections [] (Line.ofText cs) →
        List.Forall₂ Section.Makes sections blocks →
        ((Line.ofText cs).filter fun l => isMarker l.text) = sections.flatMap Section.markers ∧
          (Line.ofText cs).Nodup ∧
          (Line.ofText cs).Perm (preface ++ (sections.flatMap Section.markers ++
            (sections.flatMap Section.comments ++ blocks.flatMap Block.body))) ∧
          ∀ preface' sections', IsPartition preface' sections' [] (Line.ofText cs) →
            preface' = preface ∧ sections' = sections) ∧
      ∀ fault, locate (Line.ofText cs) = .error fault ↔ ∃ preface sections blocks rest,
        IsPartition preface sections rest (Line.ofText cs) ∧
        List.Forall₂ Section.Makes sections blocks ∧ Offends rest fault :=
  ⟨fun _ => locate_eq_ok_iff,
    fun _ _ _ h hblocks => ⟨h.filter_isMarker, Line.nodup_ofText cs, h.perm hblocks,
      fun _ _ h' => h'.unique h⟩, fun _ => locate_eq_error_iff⟩

def pairedText : List Char :=
  (String.intercalate "\n" ("" :: Header.markerLines .plain ++ ["void f();"])).toList

def interruptedText : List Char :=
  (String.intercalate "\n" ["", marker, "//\x7b", "void f();"]).toList

/-- A text with a pair of markers, and one whose second marker is missing. -/
theorem locate_partitions_samples :
    (∃ blocks preface sections, locate (Line.ofText pairedText) = .ok blocks ∧
      IsPartition preface sections [] (Line.ofText pairedText) ∧
      (Line.ofText pairedText).Perm (preface ++ (sections.flatMap Section.markers ++
        (sections.flatMap Section.comments ++ blocks.flatMap Block.body)))) ∧
    locate (Line.ofText interruptedText) = .error (.line 4 (.interruptedMarker 2)) := by
  have hok : (locate (Line.ofText pairedText)).isOk := by decide +kernel
  obtain ⟨blocks, hblocks⟩ := exists_of_isOk hok
  obtain ⟨hsuccess, hparts, -⟩ := locate_partitions pairedText
  obtain ⟨preface, sections, hpartition, hmakes⟩ := (hsuccess blocks).mp hblocks
  refine ⟨⟨blocks, preface, sections, hblocks, hpartition,
    (hparts preface sections blocks hpartition hmakes).2.2.1⟩, ?_⟩
  have hlines : Line.ofText interruptedText =
      [⟨1, []⟩] ++
      ([] ++ ⟨2, marker.toList⟩ :: ([⟨3, "//\x7b".toList⟩] ++ ⟨4, "void f();".toList⟩ :: [])) := by
    decide +kernel
  obtain ⟨-, -, hfailure⟩ := locate_partitions interruptedText
  refine (hfailure _).mpr ⟨_, [], [], _, ⟨?_, nofun, hlines⟩, .nil, .interrupted ?_ ?_ ?_ ?_⟩
  · decide
  · decide
  · intro l hl
    cases List.mem_singleton.mp hl
    exact ⟨by decide, ['\x7b'], rfl⟩
  · decide
  · intro text htext
    have hnone : comment? "void f();".toList = none := by decide
    cases hnone.symm.trans (comment?_eq_some_iff.mpr htext)

end Block

end DerivativeHeaders
