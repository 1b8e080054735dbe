import DerivativeHeaders.Identifier
import DerivativeHeaders.Proofs.Text.Solid

/-! # Characters of identifiers

An identifier has no blank, no line feed and no carriage return; a field name has no capital letter.
No identifier has a colon, so a qualified path is cut into the identifiers it is made of.
-/
namespace DerivativeHeaders

open Text

namespace Identifier

theorem isContinuation_of_isStart {c : Char} (h : isStart c) : isContinuation c := by
  simp only [isStart, isContinuation, Char.isAlphanum, Bool.or_eq_true] at h ⊢
  exact h.imp_left .inl

theorem forall_isContinuation {w : List Char} (h : isValidChars w) : ∀ c ∈ w, isContinuation c := by
  cases w with
  | nil => cases h
  | cons c w =>
    obtain ⟨hstart, hall⟩ := Bool.and_eq_true_iff.mp h
    intro d hd
    rcases List.mem_cons.mp hd with rfl | hd
    · exact isContinuation_of_isStart hstart
    · exact List.all_eq_true.mp hall d hd

theorem isValidChars_append {w rest : List Char} (h : isValidChars w)
    (hrest : ∀ c ∈ rest, isContinuation c) :
    isValidChars (w ++ rest) := by
  cases w with
  | nil => cases h
  | cons c w =>
    obtain ⟨hstart, hall⟩ := Bool.and_eq_true_iff.mp h
    refine Bool.and_eq_true_iff.mpr ⟨hstart, List.all_eq_true.mpr fun d hd => ?_⟩
    rcases List.mem_append.mp hd with hd | hd
    · exact List.all_eq_true.mp hall d hd
    · exact hrest d hd

theorem ne_nil {w : List Char} (h : isValidChars w) : w ≠ [] := by
  rintro rfl
  cases h

theorem isUpper_iff {c : Char} : c.isUpper ↔ 65 ≤ c.toNat ∧ c.toNat ≤ 90 := by
  have hupper : c.isUpper = decide ('A' ≤ c ∧ c ≤ 'Z') := rfl
  rw [hupper, decide_eq_true_iff]
  rfl

theorem isLower_iff {c : Char} : c.isLower ↔ 97 ≤ c.toNat ∧ c.toNat ≤ 122 := by
  have hlower : c.isLower = (decide ('a' ≤ c) && decide (c ≤ 'z')) := rfl
  rw [hlower, Bool.and_eq_true, decide_eq_true_iff, decide_eq_true_iff]
  rfl

theorem toNat_of_isStart {c : Char} (h : isStart c) :
    (65 ≤ c.toNat ∧ c.toNat ≤ 90) ∨ (97 ≤ c.toNat ∧ c.toNat ≤ 122) ∨ c.toNat = 95 := by
  have hstart : isStart c = (c.isUpper || c.isLower || c == '_') := rfl
  rw [hstart, Bool.or_eq_true, Bool.or_eq_true, isUpper_iff, isLower_iff, beq_iff_eq] at h
  rcases h with (h | h) | rfl
  · exact .inl h
  · exact .inr (.inl h)
  · exact .inr (.inr rfl)

theorem toNat_of_isContinuation {c : Char} (h : isContinuation c) :
    (48 ≤ c.toNat ∧ c.toNat ≤ 57) ∨ (65 ≤ c.toNat ∧ c.toNat ≤ 90) ∨ (97 ≤ c.toNat ∧ c.toNat ≤ 122) ∨
      c.toNat = 95 := by
  have hsplit : isContinuation c = (c.isAlpha || c.isDigit || c == '_') := rfl
  rw [hsplit, Bool.or_eq_true, Bool.or_eq_true] at h
  by_cases hdigit : c.isDigit
  · exact .inl (Char.isDigit_iff_toNat.mp hdigit)
  · refine .inr (toNat_of_isStart (Bool.or_eq_true_iff.mpr ?_))
    rcases h with (h | h) | h
    · exact .inl h
    · exact absurd h hdigit
    · exact .inr h

theorem isBlank_eq_false {c : Char} (h : isContinuation c) : isBlank c = false := by
  have hc := toNat_of_isContinuation h
  simp only [isBlank, Bool.or_eq_false_iff, Bool.and_eq_false_iff, decide_eq_false_iff_not,
    beq_eq_false_iff_ne]
  omega

theorem solid {w : List Char} (h : isValidChars w) : Solid w :=
  solid_of_forall (ne_nil h) fun c hc => isBlank_eq_false (forall_isContinuation h c hc)

theorem oneLine {w : List Char} (h : isValidChars w) : OneLine w :=
  oneLine_of_forall (forall_isContinuation h) (by decide) (by decide)

end Identifier

theorem FieldName.capital_not_mem {cs : List Char} (h : FieldName.isValidChars cs) : 'D' ∉ cs := by
  cases cs with
  | nil => exact List.not_mem_nil
  | cons c cs =>
    obtain ⟨hstart, hall⟩ := Bool.and_eq_true_iff.mp h
    intro hmem
    rcases List.mem_cons.mp hmem with rfl | hmem
    · exact absurd hstart (by decide)
    · exact absurd (List.all_eq_true.mp hall _ hmem) (by decide)

/-- The first piece of a joined text begins it. -/
theorem intercalate_cons_head {α : Type} (separator : List α) (c : α) (piece : List α)
    (pieces : List (List α)) :
    separator.intercalate ((c :: piece) :: pieces) = c :: separator.intercalate (piece :: pieces) := by
  cases pieces with
  | nil => rw [List.intercalate_singleton, List.intercalate_singleton]
  | cons next pieces =>
    rw [List.intercalate_cons_cons, List.intercalate_cons_cons, List.cons_append, List.cons_append]

/-- Identifiers with `::` between them. -/
def IsQualified (path : String) : Prop :=
  ∃ names : List String, names ≠ [] ∧ (∀ n ∈ names, isIdentifier n) ∧
    path = "::".intercalate names

/-- The segments of a text with `::` between them are the text. -/
theorem intercalate_pathSegments (cs : List Char) :
    pathSegments cs ≠ [] ∧ [':', ':'].intercalate (pathSegments cs) = cs := by
  induction cs using pathSegments.induct with
  | case1 => exact ⟨List.cons_ne_nil _ _, rfl⟩
  | case2 cs ih =>
    rw [pathSegments]
    refine ⟨List.cons_ne_nil _ _, ?_⟩
    rw [List.intercalate_cons_of_ne_nil ih.1, ih.2]
    rfl
  | case3 c cs hcolons hnil ih => exact absurd hnil ih.1
  | case4 c cs hcolons segment rest hsegments ih =>
    obtain ⟨-, ih⟩ := ih
    rw [pathSegments.eq_3 _ _ hcolons]
    rw [hsegments] at ih ⊢
    exact ⟨List.cons_ne_nil _ _, by rw [intercalate_cons_head, ih]⟩

theorem pathSegments_cons {c : Char} {cs segment : List Char} {segments : List (List Char)}
    (hc : c ≠ ':') (h : pathSegments cs = segment :: segments) :
    pathSegments (c :: cs) = (c :: segment) :: segments := by
  rw [pathSegments.eq_3 _ _ fun _ heq => absurd heq hc, h]

theorem pathSegments_append {segment rest : List Char} {segments : List (List Char)}
    (h : ':' ∉ segment) (hrest : pathSegments rest = [] :: segments) :
    pathSegments (segment ++ rest) = segment :: segments := by
  induction segment with
  | nil => exact hrest
  | cons c segment ih =>
    have hc : c ≠ ':' := fun hc => h (hc ▸ List.mem_cons_self)
    exact pathSegments_cons hc (ih (List.not_mem_of_not_mem_cons h))

theorem pathSegments_intercalate {segments : List (List Char)} (hne : segments ≠ [])
    (h : ∀ segment ∈ segments, ':' ∉ segment) :
    pathSegments ([':', ':'].intercalate segments) = segments := by
  induction segments with
  | nil => exact absurd rfl hne
  | cons segment segments ih =>
    have hsegment := h segment List.mem_cons_self
    cases segments with
    | nil =>
      rw [List.intercalate_singleton]
      have hend : pathSegments (segment ++ []) = [segment] := pathSegments_append hsegment rfl
      rwa [List.append_nil] at hend
    | cons next segments =>
      have ih :=
        ih (List.cons_ne_nil _ _) fun other hother => h other (List.mem_cons_of_mem _ hother)
      rw [List.intercalate_cons_cons, List.append_assoc]
      refine pathSegments_append hsegment ?_
      rw [List.cons_append, List.cons_append, List.nil_append, pathSegments, ih]

theorem isQualifiedPath_iff {path : String} : isQualifiedPath path ↔ IsQualified path := by
  rw [isQualifiedPath, List.all_eq_true]
  constructor
  · intro hall
    obtain ⟨hne, heq⟩ := intercalate_pathSegments path.toList
    refine ⟨(pathSegments path.toList).map String.ofList, List.map_eq_nil_iff.not.mpr hne, ?_, ?_⟩
    · rintro n hn
      obtain ⟨segment, hsegment, rfl⟩ := List.mem_map.mp hn
      rw [isIdentifier, String.toList_ofList]
      exact hall segment hsegment
    · have hpieces : ((pathSegments path.toList).map String.ofList).map String.toList =
          pathSegments path.toList := by
        rw [List.map_map]
        exact List.map_id'' (fun _ => String.toList_ofList) _
      rw [← String.toList_inj, String.toList_intercalate, hpieces]
      exact heq.symm
  · rintro ⟨names, hne, hnames, rfl⟩ segment hsegment
    have hcolon : ∀ segment ∈ names.map String.toList, ':' ∉ segment :=
      List.forall_mem_map.mpr fun n hn hmem =>
        absurd (Identifier.forall_isContinuation (hnames n hn) ':' hmem) (by decide)
    have hsegments : pathSegments ("::".intercalate names).toList = names.map String.toList := by
      rw [String.toList_intercalate]
      exact pathSegments_intercalate (List.map_eq_nil_iff.not.mpr hne) hcolon
    rw [hsegments] at hsegment
    obtain ⟨n, hn, rfl⟩ := List.mem_map.mp hsegment
    exact hnames n hn

end DerivativeHeaders
