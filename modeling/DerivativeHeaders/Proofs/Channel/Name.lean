import DerivativeHeaders.Channel.Name
import DerivativeHeaders.Proofs.Identifier
import DerivativeHeaders.Proofs.Outcome
import Mathlib.Data.List.Nodup

/-! # Channel names read back

No variable name has a capital letter, so the separators of a channel name are found where they
were written, and the name is read as the channel it was written for.
-/
namespace DerivativeHeaders

open Outcome

namespace Channel

theorem dropStart?_separator_eq_none {c d : Char} {cs : List Char} (h : d ≠ 'D') :
    Text.dropStart? separator (c :: d :: cs) = none := by
  rw [separator, Text.dropStart?, Text.dropStart?]
  split
  · exact if_neg h.symm
  · rfl

theorem splitFrom_separator (cs : List Char) :
    splitFrom 0 (separator ++ cs) = [] :: splitFrom 0 cs := by
  have hdrop : Text.dropStart? separator (separator ++ cs) = some cs :=
    Text.dropStart?_eq_some.mpr rfl
  change splitFrom 0 ('_' :: ('D' :: '_' :: cs)) = _
  change Text.dropStart? separator ('_' :: ('D' :: '_' :: cs)) = some cs at hdrop
  simp only [splitFrom, hdrop, Option.isSome_some, ↓reduceIte]

theorem splitFrom_cons {c : Char} {cs piece : List Char} {pieces : List (List Char)}
    (hnone : Text.dropStart? separator (c :: cs) = none) (h : splitFrom 0 cs = piece :: pieces) :
    splitFrom 0 (c :: cs) = (c :: piece) :: pieces := by
  simp only [splitFrom, hnone, Option.isSome_none, Bool.false_eq_true, ↓reduceIte, h]

/-- A separator is not met before the end of a piece without capital letters. -/
theorem splitFrom_piece {piece : List Char} (h : 'D' ∉ piece) {rest : List Char}
    {pieces : List (List Char)}
    (hrest : splitFrom 0 rest = [] :: pieces) (hhead : rest.head? ≠ some 'D') :
    splitFrom 0 (piece ++ rest) = piece :: pieces := by
  induction piece with
  | nil => exact hrest
  | cons c piece ih =>
    have ih := ih (List.not_mem_of_not_mem_cons h)
    refine splitFrom_cons ?_ ih
    cases piece with
    | nil =>
      cases rest with
      | nil =>
        simp only [separator, Text.dropStart?]
        split <;> rfl
      | cons d rest =>
        exact dropStart?_separator_eq_none fun hd => hhead (hd ▸ rfl)
    | cons d piece =>
      refine dropStart?_separator_eq_none fun hd => h ?_
      rw [hd]
      exact List.mem_cons_of_mem _ List.mem_cons_self

theorem splitFrom_intercalate {pieces : List (List Char)} (hne : pieces ≠ [])
    (h : ∀ piece ∈ pieces, 'D' ∉ piece) :
    splitFrom 0 (separator.intercalate pieces) = pieces := by
  induction pieces with
  | nil => exact absurd rfl hne
  | cons piece pieces ih =>
    have hpiece := h piece List.mem_cons_self
    cases pieces with
    | nil =>
      rw [List.intercalate_singleton]
      have hend : splitFrom 0 (piece ++ []) = [piece] := splitFrom_piece hpiece rfl (by simp)
      rwa [List.append_nil] at hend
    | cons next pieces =>
      have ih :=
        ih (List.cons_ne_nil _ _) fun other hother => h other (List.mem_cons_of_mem _ hother)
      rw [List.intercalate_cons_cons, List.append_assoc]
      refine splitFrom_piece hpiece ?_ (by simp [separator])
      rw [splitFrom_separator, ih]

theorem segments_value {cs : List Char} (h : 'D' ∉ cs) : segments cs = (0, [cs]) := by
  have hnone {mark : List Char} : Text.dropStart? ('D' :: mark) cs = none := by
    cases cs with
    | nil => rfl
    | cons c cs =>
      have hc : 'D' ≠ c := fun hc => h (List.mem_cons.mpr (.inl hc))
      exact if_neg hc
  simp only [segments, secondMark, firstMark, hnone]

theorem segments_first {out input : List Char} (ho : 'D' ∉ out) (hi : 'D' ∉ input) :
    segments (firstMark ++ separator.intercalate [out, input]) = (1, [out, input]) := by
  have hsecond :
      Text.dropStart? secondMark (firstMark ++ separator.intercalate [out, input]) = none := rfl
  have hfirst : Text.dropStart? firstMark (firstMark ++ separator.intercalate [out, input]) =
      some (separator.intercalate [out, input]) := Text.dropStart?_eq_some.mpr rfl
  have hsplit : splitFrom 0 (separator.intercalate [out, input]) = [out, input] :=
    splitFrom_intercalate (by simp) (by simp [ho, hi])
  simp only [segments, hsecond, hfirst, hsplit]

theorem segments_second {out a b : List Char} (ho : 'D' ∉ out) (ha : 'D' ∉ a) (hb : 'D' ∉ b) :
    segments (secondMark ++ separator.intercalate [out, a, b]) = (2, [out, a, b]) := by
  have hsecond : Text.dropStart? secondMark (secondMark ++ separator.intercalate [out, a, b]) =
      some (separator.intercalate [out, a, b]) := Text.dropStart?_eq_some.mpr rfl
  have hsplit : splitFrom 0 (separator.intercalate [out, a, b]) = [out, a, b] :=
    splitFrom_intercalate (by simp) (by simp [ho, ha, hb])
  simp only [segments, hsecond, hsplit]

theorem firstName_toList (out input : String) :
    (firstName out input).toList =
      firstMark ++ separator.intercalate [out.toList, input.toList] := by
  simp only [firstName, String.toList_append, List.append_assoc, List.intercalate_cons_cons,
    List.intercalate_singleton]
  rfl

theorem secondName_toList (out a b : String) :
    (secondName out a b).toList =
      secondMark ++ separator.intercalate [out.toList, a.toList, b.toList] := by
  simp only [secondName, String.toList_append, List.append_assoc, List.intercalate_cons_cons,
    List.intercalate_singleton]
  rfl

variable {outputs inputs : List String} {c : Channel} {s : String}

theorem variableName_eq_ok_iff {names : List String} {i : Nat} {n : String} :
    c.variableName outputs inputs names i = .ok n ↔ names[i]? = some n ∧ isFieldName n := by
  rw [variableName]
  cases names[i]? with
  | none => simp
  | some m =>
    simp only [Option.some.injEq]
    constructor
    · intro h
      split at h
      · cases h
        exact ⟨rfl, by assumption⟩
      · cases h
    · rintro ⟨rfl, h⟩
      exact if_pos h

theorem variableIndex_eq_ok {names : List String} (h : names.Nodup) {i : Nat} {n : String}
    (hi : names[i]? = some n)
    (channel : String) : variableIndex channel n names = .ok i := by
  obtain ⟨hlt, rfl⟩ := List.getElem?_eq_some_iff.mp hi
  have hfind : names.findIdx? (· == names[i]) = some i := by
    rw [List.findIdx?_eq_some_iff_getElem]
    refine ⟨hlt, beq_self_eq_true _, fun j hj heq => ?_⟩
    have := (List.Nodup.getElem_inj_iff h).mp (eq_of_beq heq)
    omega
  rw [variableIndex, hfind]

theorem name_value_eq_ok_iff {o : Nat} :
    name outputs inputs (value o) = .ok s ↔ outputs[o]? = some s ∧ isFieldName s :=
  variableName_eq_ok_iff

theorem name_first_eq_ok_iff {o i : Nat} : name outputs inputs (first o i) = .ok s ↔
    ∃ out input, (outputs[o]? = some out ∧ isFieldName out) ∧
      (inputs[i]? = some input ∧ isFieldName input) ∧ firstName out input = s := by
  simp only [name, bind_eq_ok, variableName_eq_ok_iff, pure_eq_ok]
  constructor
  · rintro ⟨out, hout, input, hinput, rfl⟩
    exact ⟨out, input, hout, hinput, rfl⟩
  · rintro ⟨out, input, hout, hinput, rfl⟩
    exact ⟨out, hout, input, hinput, rfl⟩

theorem name_second_eq_ok_iff {o i j : Nat} : name outputs inputs (second o i j) = .ok s ↔
    ∃ out a b, (outputs[o]? = some out ∧ isFieldName out) ∧ (inputs[i]? = some a ∧ isFieldName a) ∧
      (inputs[j]? = some b ∧ isFieldName b) ∧ secondName out a b = s := by
  simp only [name, bind_eq_ok, variableName_eq_ok_iff, pure_eq_ok]
  constructor
  · rintro ⟨out, hout, a, ha, b, hb, rfl⟩
    exact ⟨out, a, b, hout, ha, hb, rfl⟩
  · rintro ⟨out, a, b, hout, ha, hb, rfl⟩
    exact ⟨out, hout, a, ha, b, hb, rfl⟩

/-- The name of a channel is read as the channel, with its inputs in order. -/
theorem ofName_name (houtputs : outputs.Nodup) (hinputs : inputs.Nodup)
    (h : name outputs inputs c = .ok s) :
    ofName outputs inputs s = .ok c.canonical := by
  cases c with
  | value o =>
    obtain ⟨ho, hfield⟩ := name_value_eq_ok_iff.mp h
    have hvalid : FieldName.isValidChars s.toList := hfield
    have hsegments := segments_value (FieldName.capital_not_mem hvalid)
    simp [ofName, hsegments, hvalid, variableIndex_eq_ok houtputs ho, canonical,
      Functor.map, Except.map]
  | first o i =>
    obtain ⟨out, input, ⟨ho, hout⟩, ⟨hi, hinput⟩, rfl⟩ := name_first_eq_ok_iff.mp h
    have hvalid : FieldName.isValidChars out.toList := hout
    have hvalid' : FieldName.isValidChars input.toList := hinput
    have hsegments :=
      segments_first (FieldName.capital_not_mem hvalid) (FieldName.capital_not_mem hvalid')
    rw [← firstName_toList] at hsegments
    simp [ofName, hsegments, hvalid, hvalid', variableIndex_eq_ok houtputs ho,
      variableIndex_eq_ok hinputs hi, canonical, bind, Except.bind, pure, Except.pure]
  | second o i j =>
    obtain ⟨out, a, b, ⟨ho, hout⟩, ⟨hi, ha⟩, ⟨hj, hb⟩, rfl⟩ := name_second_eq_ok_iff.mp h
    have hvalid : FieldName.isValidChars out.toList := hout
    have hvalid' : FieldName.isValidChars a.toList := ha
    have hvalid'' : FieldName.isValidChars b.toList := hb
    have hsegments :=
      segments_second (FieldName.capital_not_mem hvalid) (FieldName.capital_not_mem hvalid')
      (FieldName.capital_not_mem hvalid'')
    rw [← secondName_toList] at hsegments
    simp [ofName, hsegments, hvalid, hvalid', hvalid'', variableIndex_eq_ok houtputs ho,
      variableIndex_eq_ok hinputs hi, variableIndex_eq_ok hinputs hj, canonical, bind, Except.bind,
      pure, Except.pure]

theorem canonical_eq_self (h : c.isCanonical) : c.canonical = c := by
  cases c with
  | value o => rfl
  | first o i => rfl
  | second o a b =>
    have hab : a ≤ b := by simpa [isCanonical] using h
    simp [canonical, ofPair, hab]

theorem lt_of_variableIndex {channel : String} {names : List String} {i : Nat}
    (h : variableIndex channel s names = .ok i) : i < names.length := by
  unfold variableIndex at h
  split at h
  · rename_i j hj
    cases h
    exact (List.findIdx?_eq_some_iff_getElem.mp hj).1
  · cases h

theorem isCanonical_ofPair (o a b : Nat) : (ofPair o a b).isCanonical := by
  simp only [ofPair, isCanonical, decide_eq_true_eq]
  omega

/-- A name is read as a channel of the given variables, with the inputs of a second derivative in
order. -/
theorem fits_of_ofName (h : ofName outputs inputs s = .ok c) :
    c.fits inputs.length outputs.length ∧ c.isCanonical := by
  unfold ofName at h
  dsimp only at h
  split at h
  · split at h
    · obtain ⟨o, ho, rfl⟩ := map_eq_ok.mp h
      have ho := lt_of_variableIndex ho
      simp [fits, isCanonical, ho]
    · simp only [bind_eq_ok, pure_eq_ok] at h
      obtain ⟨o, ho, i, hi, rfl⟩ := h
      have ho := lt_of_variableIndex ho
      have hi := lt_of_variableIndex hi
      simp [fits, isCanonical, ho, hi]
    · simp only [bind_eq_ok, pure_eq_ok] at h
      obtain ⟨o, ho, i, hi, j, hj, rfl⟩ := h
      have ho := lt_of_variableIndex ho
      have hi := lt_of_variableIndex hi
      have hj := lt_of_variableIndex hj
      refine ⟨?_, isCanonical_ofPair o i j⟩
      simp only [ofPair, fits, Bool.and_eq_true, decide_eq_true_eq]
      omega
    · cases h
  · cases h

theorem exists_name (h : c.fits inputs.length outputs.length)
    (houtputs : ∀ n ∈ outputs, isFieldName n)
    (hinputs : ∀ n ∈ inputs, isFieldName n) : ∃ s, name outputs inputs c = .ok s := by
  have hget {names : List String} (hnames : ∀ n ∈ names, isFieldName n) {i : Nat}
      (hi : i < names.length) :
      names[i]? = some names[i] ∧ isFieldName names[i] :=
    ⟨List.getElem?_eq_getElem hi, hnames _ (List.getElem_mem hi)⟩
  cases c with
  | value o =>
    have ho : o < outputs.length := by simpa [fits] using h
    exact ⟨_, name_value_eq_ok_iff.mpr (hget houtputs ho)⟩
  | first o i =>
    obtain ⟨ho, hi⟩ : o < outputs.length ∧ i < inputs.length := by simpa [fits] using h
    exact ⟨_, name_first_eq_ok_iff.mpr ⟨_, _, hget houtputs ho, hget hinputs hi, rfl⟩⟩
  | second o i j =>
    obtain ⟨⟨ho, hi⟩, hj⟩ : (o < outputs.length ∧ i < inputs.length) ∧ j < inputs.length := by
      simpa [fits] using h
    exact ⟨_, name_second_eq_ok_iff.mpr ⟨_, _, _, hget houtputs ho, hget hinputs hi,
      hget hinputs hj, rfl⟩⟩

theorem forall_mem_intercalate {p : Char → Prop} (hseparator : ∀ d ∈ separator, p d)
    {pieces : List (List Char)}
    (h : ∀ piece ∈ pieces, ∀ d ∈ piece, p d) : ∀ d ∈ separator.intercalate pieces, p d := by
  induction pieces with
  | nil => nofun
  | cons piece pieces ih =>
    have hpiece := h piece List.mem_cons_self
    have ih := ih fun other hother => h other (List.mem_cons_of_mem _ hother)
    cases pieces with
    | nil => rwa [List.intercalate_singleton]
    | cons next pieces =>
      rw [List.intercalate_cons_cons]
      simp only [List.mem_append]
      rintro d ((hd | hd) | hd)
      · exact hpiece d hd
      · exact hseparator d hd
      · exact ih d hd

theorem isIdentifier_marked {mark : List Char} (hmark : ∀ d ∈ mark, Identifier.isContinuation d)
    {pieces : List (List Char)} (h : ∀ piece ∈ pieces, FieldName.isValidChars piece) :
    Identifier.isValidChars ('D' :: (mark ++ separator.intercalate pieces)) := by
  have hpieces : ∀ d ∈ separator.intercalate pieces, Identifier.isContinuation d :=
    forall_mem_intercalate (List.all_eq_true.mp (by decide)) fun piece hpiece =>
      Identifier.forall_isContinuation (FieldName.isValidChars_identifier (h piece hpiece))
  refine Bool.and_eq_true_iff.mpr ⟨rfl, List.all_eq_true.mpr fun d hd => ?_⟩
  rcases List.mem_append.mp hd with hd | hd
  · exact hmark d hd
  · exact hpieces d hd

theorem isIdentifier_name (h : name outputs inputs c = .ok s) : isIdentifier s := by
  rw [isIdentifier]
  cases c with
  | value o =>
    obtain ⟨-, hs⟩ := name_value_eq_ok_iff.mp h
    exact FieldName.isValidChars_identifier hs
  | first o i =>
    obtain ⟨out, input, ⟨-, hout⟩, ⟨-, hinput⟩, rfl⟩ := name_first_eq_ok_iff.mp h
    rw [firstName_toList]
    have hmark : ∀ d ∈ ['_'], Identifier.isContinuation d := List.all_eq_true.mp (by decide)
    refine isIdentifier_marked hmark ?_
    rintro piece (_ | ⟨_, _ | ⟨_, ⟨⟩⟩⟩)
    · exact hout
    · exact hinput
  | second o i j =>
    obtain ⟨out, a, b, ⟨-, hout⟩, ⟨-, ha⟩, ⟨-, hb⟩, rfl⟩ := name_second_eq_ok_iff.mp h
    rw [secondName_toList]
    have hmark : ∀ d ∈ ['2', '_'], Identifier.isContinuation d := List.all_eq_true.mp (by decide)
    refine isIdentifier_marked hmark ?_
    rintro piece (_ | ⟨_, _ | ⟨_, _ | ⟨_, ⟨⟩⟩⟩⟩)
    · exact hout
    · exact ha
    · exact hb

theorem isReserved_eq_false {s : String} {cs : List Char} (h : s.toList = 'D' :: cs) :
    isReserved s = false := by
  simp only [isReserved, Bool.or_eq_false_iff, beq_eq_false_iff_ne]
  refine ⟨?_, ?_⟩ <;> rintro rfl <;> exact absurd (List.head_eq_of_cons_eq h) (by decide)

theorem isReserved_name (h : name outputs inputs c = .ok s) (hc : 0 < c.order) :
    isReserved s = false := by
  cases c with
  | value o => cases hc
  | first o i =>
    obtain ⟨out, input, -, -, rfl⟩ := name_first_eq_ok_iff.mp h
    exact isReserved_eq_false (firstName_toList out input)
  | second o i j =>
    obtain ⟨out, a, b, -, -, -, rfl⟩ := name_second_eq_ok_iff.mp h
    exact isReserved_eq_false (secondName_toList out a b)

end Channel

end DerivativeHeaders
