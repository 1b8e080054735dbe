import DerivativeHeaders.Proofs.Header.Naming
import DerivativeHeaders.Proofs.Header.Widening

/-! # The head of a definition

A definition begins with the lines of the prototype that hold no remark, and a brace stands where
the last of them ends. Where there are remarks there is a parameter in front of them, since the
output of a constant channel has its value as a parameter.
-/
namespace DerivativeHeaders

open Outcome Text

namespace Prototype

/-- The line is a remark, perhaps with the closing of a declaration behind it. -/
def isRemarkLine (line : String) : Bool :=
  "/*".toList.isPrefixOf (trimStart line.toList) &&
    ("*/".toList.isSuffixOf line.toList || "*/);".toList.isSuffixOf line.toList)

/-- The end of a declaration, or of a line that has none, becomes the end of the head of a
definition. -/
inductive Reopens : String → String → Prop
  | closed (text : String) : Reopens (text ++ ");") (text ++ ") \x7b")
  | bare {text : String} (htext : ¬ ");".toList <:+ text.toList) : Reopens text (text ++ ") \x7b")

/-- The lines without remarks, the last of them with another end. -/
def IsHeadOf (head lines : List String) : Prop :=
  ∃ kept last ending, lines.filter (fun line => !isRemarkLine line) = kept ++ [last] ∧
    Reopens last ending ∧ head = kept ++ [ending]

/-- The slot is a parameter whose text has a character of a word at both ends. -/
structure HasWordEnds (slot : Slot) : Prop where
  isParameter : slot.isParameter
  first : ∃ c rest, slot.text.toList = c :: rest ∧ Identifier.isContinuation c
  last : ∃ start c, slot.text.toList = start ++ [c] ∧ Identifier.isContinuation c

/-- The slot is a remark whose text is a comment. -/
structure IsComment (slot : Slot) : Prop where
  isRemark : slot.isParameter = false
  enclosed : ∃ inner, slot.text.toList = "/*".toList ++ inner ++ "*/".toList

variable {slot : Slot} {function lead : String}

theorem isRemarkLine_eq_false {line : String} {c : Char}
    (hline : (trimStart line.toList).head? = some c)
    (hc : c ≠ '/') : isRemarkLine line = false := by
  obtain ⟨rest, hrest⟩ := List.head?_eq_some_iff.mp hline
  have hprefix : "/*".toList.isPrefixOf (c :: rest) = false := by
    simp [List.isPrefixOf, hc.symm]
  unfold isRemarkLine
  rw [hrest, hprefix, Bool.false_and]

theorem isRemarkLine_opening (function text : String) :
    isRemarkLine (opening function ++ text) = false := by
  have hhead : (trimStart (opening function ++ text).toList).head? = some 'v' := by
    simp only [String.toList_append, opening_toList, List.append_assoc]
    rfl
  exact isRemarkLine_eq_false hhead (by decide)

theorem trimStart_indent (function text : String) :
    trimStart (indent function ++ text).toList = trimStart text.toList := by
  unfold indent
  rw [String.toList_append, String.toList_ofList, trimStart_spaces]

theorem isRemarkLine_indent (hslot : HasWordEnds slot) (function closing : String)
    (rest : List Slot) :
    isRemarkLine (indent function ++ slotText slot rest closing) = false := by
  obtain ⟨c, cs, htext, hc⟩ := hslot.first
  have hslash : c ≠ '/' := by
    rintro rfl
    exact absurd hc (by decide)
  refine isRemarkLine_eq_false ?_ hslash
  rw [trimStart_indent]
  simp only [slotText, String.toList_append, htext, List.cons_append,
    trimStart, List.dropWhile_cons, Identifier.isBlank_eq_false hc, Bool.false_eq_true, ↓reduceIte,
    List.head?_cons]

theorem isRemarkLine_of_isComment (hslot : IsComment slot) (function : String) (rest : List Slot) :
    isRemarkLine (indent function ++ slotText slot rest ");") := by
  obtain ⟨inner, htext⟩ := hslot.enclosed
  have hslotText : slotText slot rest ");" = slot.text ++ (if rest.isEmpty then ");" else "") := by
    simp [slotText, hslot.isRemark]
  unfold isRemarkLine
  rw [trimStart_indent, Bool.and_eq_true, Bool.or_eq_true, List.isPrefixOf_iff_prefix,
    List.isSuffixOf_iff_suffix, List.isSuffixOf_iff_suffix, hslotText]
  constructor
  · refine ⟨inner ++ "*/".toList ++ (if rest.isEmpty then ");" else "").toList, ?_⟩
    simp only [String.toList_append, htext, List.append_assoc]
    rfl
  · simp only [String.toList_append, htext]
    split
    · right
      refine ⟨(indent function).toList ++ ("/*".toList ++ inner), ?_⟩
      simp only [List.append_assoc]
      rfl
    · left
      refine ⟨(indent function).toList ++ ("/*".toList ++ inner), ?_⟩
      simp only [List.append_assoc]
      rfl

theorem filter_remarkLines {remarks : List Slot} (h : ∀ slot ∈ remarks, IsComment slot)
    (function : String) :
    (slotLines ");" (indent function) (indent function)
      remarks).filter (fun line => !isRemarkLine line) = [] := by
  induction remarks with
  | nil => rfl
  | cons slot remarks ih =>
    have hline := isRemarkLine_of_isComment (h slot List.mem_cons_self) function remarks
    have ih := ih fun other hother => h other (List.mem_cons_of_mem _ hother)
    simp only [slotLines, List.filter_cons, hline, Bool.not_true, Bool.false_eq_true,
      ↓reduceIte, ih]

/-- The last parameter is where the head of the definition ends. -/
theorem isHeadOf_last {remarks : List Slot} (hslot : HasWordEnds slot)
    (hremarks : ∀ r ∈ remarks, IsComment r)
    (hlead : ∀ closing rest, isRemarkLine (lead ++ slotText slot rest closing) = false) :
    IsHeadOf (slotLines ") \x7b" lead (indent function) [slot])
      (slotLines ");" lead (indent function) (slot :: remarks)) := by
  have hnone : remarks.any Slot.isParameter = false := by
    rw [List.any_eq_false]
    intro r hr
    rw [(hremarks r hr).isRemark]
    exact Bool.false_ne_true
  have hline (closing : String) :
      slotText slot remarks closing = slot.text ++ if remarks.isEmpty then closing else "" := by
    simp [slotText, hnone]
  have hhead : slotText slot [] ") \x7b" = slot.text ++ ") \x7b" := by
    simp [slotText]
  have hkept := hlead ");" remarks
  refine ⟨[], lead ++ slotText slot remarks ");", lead ++ slotText slot [] ") \x7b", ?_, ?_, rfl⟩
  · rw [slotLines, List.filter_cons_of_pos (by simp [hkept]), filter_remarkLines hremarks]
    rfl
  · rw [hline, hhead]
    cases remarks with
    | nil =>
      simp only [List.isEmpty_nil, ↓reduceIte, ← String.append_assoc]
      exact .closed _
    | cons next remarks =>
      simp only [List.isEmpty_cons, Bool.false_eq_true, ↓reduceIte,
        String.append_empty, ← String.append_assoc]
      apply Reopens.bare
      intro hsuffix
      obtain ⟨start, c, htext, hc⟩ := hslot.last
      obtain ⟨front, hfront⟩ := hsuffix
      have hlast := congrArg List.getLast? hfront
      rw [String.toList_append, htext, ← List.append_assoc, List.getLast?_concat] at hlast
      obtain rfl : ';' = c := by simpa using hlast
      exact absurd hc (by decide)

theorem isHeadOf_slotLines {parameters remarks : List Slot} (hslot : HasWordEnds slot)
    (hparameters : ∀ p ∈ parameters, HasWordEnds p) (hremarks : ∀ r ∈ remarks, IsComment r)
    (hlead : ∀ closing rest, isRemarkLine (lead ++ slotText slot rest closing) = false) :
    IsHeadOf (slotLines ") \x7b" lead (indent function) (slot :: parameters))
      (slotLines ");" lead (indent function) (slot :: parameters ++ remarks)) := by
  induction parameters generalizing slot lead with
  | nil => exact isHeadOf_last hslot hremarks hlead
  | cons next parameters ih =>
    have hnext := hparameters next List.mem_cons_self
    have hrest := fun p hp => hparameters p (List.mem_cons_of_mem _ hp)
    have hindent := isRemarkLine_indent hnext function
    obtain ⟨kept, last, ending, hkept, hends, hhead⟩ := ih hnext hrest hindent
    have hline (closing : String) (more : List Slot) :
        slotText slot (next :: (parameters ++ more)) closing = slot.text ++ "," := by
      simp [slotText, hslot.isParameter, hnext.isParameter]
    have hfirst := hlead ");" (next :: (parameters ++ remarks))
    refine ⟨(lead ++ (slot.text ++ ",")) :: kept, last, ending, ?_, hends, ?_⟩
    · rw [hline] at hfirst
      simp only [List.cons_append] at hkept ⊢
      rw [slotLines, hline, List.filter_cons_of_pos (by simp [hfirst]), hkept]
    · have hbare := hline ") \x7b" []
      rw [List.append_nil] at hbare
      rw [slotLines, hbare, hhead]
      rfl

theorem hasWordEnds_parameter {first last text : String} (hfirst : isIdentifier first)
    (hlast : isIdentifier last)
    (middle : List Char) (htext : text.toList = first.toList ++ (middle ++ last.toList)) :
    HasWordEnds (.parameter text) := by
  have hstart := Identifier.forall_isContinuation hfirst
  have hend := Identifier.forall_isContinuation hlast
  obtain ⟨c, rest, hc⟩ := List.exists_cons_of_ne_nil (Identifier.ne_nil hfirst)
  have hne := Identifier.ne_nil hlast
  refine ⟨rfl, ⟨c, rest ++ (middle ++ last.toList), ?_, hstart c ?_⟩,
    first.toList ++ (middle ++ last.toList.dropLast), last.toList.getLast hne, ?_,
    hend _ (List.getLast_mem hne)⟩
  · rw [Slot.text, htext, hc, List.cons_append]
  · rw [hc]
    exact List.mem_cons_self
  · rw [Slot.text, htext, List.append_assoc, List.append_assoc, List.dropLast_append_getLast hne]

theorem hasWordEnds_input {type name : String} (htype : isIdentifier type)
    (hname : isIdentifier name)
    (passing : Passing) : HasWordEnds (.parameter (passing.text type name)) := by
  cases passing with
  | byValue =>
    apply hasWordEnds_parameter htype hname [' ']
    simp only [Passing.text, String.toList_append, List.append_assoc]
    rfl
  | byConstReference =>
    have hconst : isIdentifier "const" := by decide
    apply hasWordEnds_parameter hconst hname (" " ++ type ++ "& ").toList
    simp only [Passing.text, String.toList_append, List.append_assoc]
    rfl

theorem hasWordEnds_output {type name : String} (htype : isIdentifier type)
    (hname : isIdentifier name) :
    HasWordEnds (.parameter (type ++ "* " ++ name)) := by
  apply hasWordEnds_parameter htype hname "* ".toList
  simp only [String.toList_append, List.append_assoc]

theorem isComment_remarkText (name : String) (x : Binary64) :
    IsComment (.remark (remarkText name x)) := by
  refine ⟨rfl, " ".toList ++ name.toList ++ " = ".toList ++ (x.fixed constantPlaces).toList ++
    " ".toList, ?_⟩
  simp only [Slot.text, remarkText, String.toList_append, List.append_assoc]
  rfl

end Prototype

namespace Header

variable {h : Header} {v : Variant} {ins outs remarks : List Slot}

/-- The lines of the prototype in the text of the header, and the lines that open the definition. -/
structure HasHead (h : Header) (v : Variant) (lines head : List String) : Prop where
  prototype : h.prototypeLines v = .ok lines
  printed : ∃ before after,
    h.print = .ok (String.intercalate "\n" (before ++ (markerLines v ++ lines ++ [""]) ++ after))
  defined : h.definitionHead v = .ok head
  isHead : Prototype.IsHeadOf head lines
  /-- Both are laid out for the same function and the same parameters. -/
  same : ∃ function slots, lines = Prototype.layout ");" function slots ∧
    head = Prototype.layout ") \x7b" function (slots.filter Slot.isParameter)

theorem hasWordEnds_parameters (hc : h.IsChecked) (hp : h.HasParameters v ins outs) :
    ∀ slot ∈ ins ++ outs, Prototype.HasWordEnds slot := by
  intro slot hslot
  rcases List.mem_append.mp hslot with hslot | hslot
  · obtain ⟨x, hx, hinput⟩ := forall₂_exists_left hp.inputs hslot
    have hmem := List.mem_append_left h.outputs hx
    rw [inputSlot_eq (hc.types x hmem)] at hinput
    obtain rfl := Except.ok.inj hinput
    exact Prototype.hasWordEnds_input (hc.types x hmem)
      (FieldName.isValidChars_identifier (hc.fieldNames x hmem)) _
  · obtain ⟨c, -, houtput⟩ := forall₂_exists_left hp.outputs hslot
    obtain ⟨type, name, htype, hname, rfl⟩ := channelSlot_eq_ok_iff.mp houtput
    obtain ⟨x, hx, rfl⟩ := Signature.channelType_eq_ok_iff.mp htype
    have hmem := List.mem_append_right h.inputs (List.mem_of_getElem? hx)
    exact Prototype.hasWordEnds_output (hc.types x hmem) (Channel.isIdentifier_name hname)

theorem isComment_remarks
    (hremarks : List.Forall₂ (fun x slot => h.remarkSlot x.1 x.2 = .ok slot) (h.remarks v)
      remarks) :
    ∀ slot ∈ remarks, Prototype.IsComment slot := by
  intro slot hslot
  obtain ⟨x, -, hx⟩ := forall₂_exists_left hremarks hslot
  obtain ⟨name, -, hpure⟩ := bind_eq_ok.mp hx
  obtain rfl := pure_eq_ok.mp hpure
  exact Prototype.isComment_remarkText name x.2

/-- Without any parameter there is no output, and so no channel that could be constant. -/
theorem remarks_eq_nil (hc : h.IsChecked) (hp : h.HasParameters v ins outs)
    (hnil : ins ++ outs = []) :
    h.remarks v = [] := by
  apply List.eq_nil_iff_forall_not_mem.mpr
  intro x hx
  have hlt := Signature.output_lt (mem_remarks.mp hx).1
  have hvalue := value_mem_emitted hc v hlt
  have houts := hp.outputs
  rw [(List.append_eq_nil_iff.mp hnil).2] at houts
  rw [List.forall₂_nil_right_iff.mp houts] at hvalue
  cases hvalue

theorem isHeadOf_layout (hc : h.IsChecked) (hp : h.HasParameters v ins outs)
    (hslots : h.slots v = .ok (ins ++ outs ++ remarks)) (function : String) :
    Prototype.IsHeadOf (Prototype.layout ") \x7b" function (ins ++ outs))
      (Prototype.layout ");" function (ins ++ outs ++ remarks)) := by
  have hremarks := forall₂_remarkSlots hp hslots
  have hwords := hasWordEnds_parameters hc hp
  cases hparameters : ins ++ outs with
  | nil =>
    rw [remarks_eq_nil hc hp hparameters] at hremarks
    obtain rfl := List.forall₂_nil_left_iff.mp hremarks
    have hopening := Prototype.isRemarkLine_opening function ");"
    refine ⟨[], _, _, ?_, .closed (Prototype.opening function), rfl⟩
    simp [Prototype.layout, hopening]
  | cons slot parameters =>
    rw [hparameters] at hwords
    exact Prototype.isHeadOf_slotLines (hwords slot List.mem_cons_self)
      (fun p hp => hwords p (List.mem_cons_of_mem _ hp)) (isComment_remarks hremarks)
      fun closing rest => Prototype.isRemarkLine_opening function _

/-- The definition of a supported variant is opened as its prototype is printed, without the
remarks. -/
theorem definition_opens_prototype (hc : h.IsConstructed) (hv : h.supports v) :
    ∃ lines head, h.HasHead v lines head := by
  have hchecked := hc.isChecked
  obtain ⟨ins, outs, hp⟩ := exists_parameters hchecked v
  obtain ⟨remarks, hslots, hremarks⟩ := exists_remarks hchecked hp
  obtain ⟨-, -, hprinted, hdefined⟩ := hasPrototype hchecked hv hp hslots hremarks
  have hhead := isHeadOf_layout hchecked hp hslots (v.extendName h.name)
  have hfilter := hp.filter_append hremarks
  refine ⟨_, _, ?_, hprinted, hdefined, ?_, _, _, rfl, rfl⟩
  · rw [prototypeLines, hslots, hchecked.functionName_eq]
    rfl
  · rw [hfilter]
    exact hhead

/-- The last parameter has a remark behind it, so its line has no end of its own. -/
theorem definition_opens_prototype_sharing : ∃ h lines, sharing = .ok h ∧ h.supports ⟨true, false⟩ ∧
    h.HasHead ⟨true, false⟩ lines
      ["void fWithFirstOrderDerivatives(double x,", "                                double* y,",
      "                                int* n,",
      "                                int* D_n_D_x) \x7b"] := by
  obtain ⟨h, hh⟩ := exists_sharing
  have hv : (sharing.toOption.map fun h => h.supports ⟨true, false⟩) = some true := by
    decide +kernel
  have hdefined : (sharing.toOption.bind fun h => (h.definitionHead ⟨true, false⟩).toOption) =
      some ["void fWithFirstOrderDerivatives(double x,",
        "                                double* y,",
        "                                int* n,",
        "                                int* D_n_D_x) \x7b"] := by
    decide +kernel
  rw [hh] at hv hdefined
  have hv : h.supports ⟨true, false⟩ := Option.some.inj hv
  obtain ⟨lines, head, hhead⟩ := definition_opens_prototype (isConstructed_sharing hh) hv
  obtain rfl := Except.ok.inj (hhead.defined.symm.trans (eq_ok_of_toOption hdefined))
  exact ⟨h, lines, hh, hv, hhead⟩

end Header

end DerivativeHeaders
