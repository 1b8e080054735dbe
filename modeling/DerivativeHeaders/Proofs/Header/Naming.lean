import DerivativeHeaders.Proofs.Call.Prototype

/-! # The names in a prototype

The names are found in the texts of the slots: a parameter ends in its name, and the remark about a
channel begins with the name of the channel. No two of them are equal, since no variable has the
capital letter that the name of a derivative begins with, and channels with equal names are equal.
-/
namespace DerivativeHeaders

open Outcome

/-- The word that a text ends in. -/
def Text.lastWord (cs : List Char) : List Char :=
  (cs.reverse.takeWhile Identifier.isContinuation).reverse

theorem Text.lastWord_append {w : List Char} (h : Identifier.isValidChars w) {c : Char}
    (hc : Identifier.isContinuation c = false) (lead : List Char) :
    lastWord (lead ++ c :: w) = w := by
  have hw : ∀ d ∈ w.reverse, Identifier.isContinuation d :=
    fun d hd => Identifier.forall_isContinuation h d (List.mem_reverse.mp hd)
  have hreverse : (lead ++ c :: w).reverse = w.reverse ++ c :: lead.reverse := by simp
  rw [lastWord, hreverse, List.takeWhile_append_of_pos hw,
    List.takeWhile_cons_of_neg (by simp [hc]), List.append_nil, List.reverse_reverse]

namespace Slot

def remarkStart : List Char := ['/', '*', ' ']

/-- The name of a parameter. -/
def declared? : Slot → Option String
  | parameter text => some (String.ofList (Text.lastWord text.toList))
  | remark _ => none

/-- The name of the channel that a remark is about. -/
def remarked? : Slot → Option String
  | parameter _ => none
  | remark text =>
    (Text.dropStart? remarkStart text.toList).map fun rest =>
      String.ofList (rest.takeWhile Identifier.isContinuation)

variable {name : String}

theorem declared?_parameter (hname : isIdentifier name) {text : String} (lead : List Char)
    (htext : text.toList = lead ++ ' ' :: name.toList) :
    declared? (.parameter text) = some name := by
  rw [declared?, htext, Text.lastWord_append hname (by decide), String.ofList_toList]

theorem declared?_input (hname : isIdentifier name) (passing : Passing) (type : String) :
    declared? (.parameter (passing.text type name)) = some name := by
  cases passing with
  | byValue =>
    refine declared?_parameter hname type.toList ?_
    simp only [Passing.text, String.toList_append, List.append_assoc]
    rfl
  | byConstReference =>
    refine declared?_parameter hname ("const " ++ type ++ "&").toList ?_
    simp only [Passing.text, String.toList_append, List.append_assoc]
    rfl

theorem declared?_output (hname : isIdentifier name) (type : String) :
    declared? (.parameter (type ++ "* " ++ name)) = some name := by
  refine declared?_parameter hname (type ++ "*").toList ?_
  simp only [String.toList_append, List.append_assoc]
  rfl

theorem remarked?_remarkText (hname : isIdentifier name) (x : Binary64) :
    remarked? (.remark (remarkText name x)) = some name := by
  have htext : (remarkText name x).toList =
      remarkStart ++ (name.toList ++ ' ' :: ("= " ++ x.fixed constantPlaces ++ " */").toList) := by
    simp only [remarkText, String.toList_append, List.append_assoc]
    rfl
  have hname := Identifier.forall_isContinuation hname
  rw [remarked?, htext, Text.dropStart?_eq_some.mpr rfl, Option.map_some,
    List.takeWhile_append_of_pos hname, List.takeWhile_cons_of_neg (by decide), List.append_nil,
    String.ofList_toList]

end Slot

namespace Variant

/-- What a variant adds to the base name. -/
def label (v : Variant) : String :=
  if v = plain then "" else "With" ++ String.join (v.active.map Toggle.label) ++ "OrderDerivatives"

theorem extendName_eq (v : Variant) (base : String) : v.extendName base = base ++ v.label := by
  rw [extendName, label]
  split
  · exact String.append_empty.symm
  · simp only [String.append_assoc]

theorem label_injective {v w : Variant} (h : v.label = w.label) : v = w := by
  revert h
  obtain ⟨_ | _, _ | _⟩ := v <;> obtain ⟨_ | _, _ | _⟩ := w <;> decide

theorem extendName_injective {v w : Variant} {base : String}
    (h : v.extendName base = w.extendName base) : v = w := by
  rw [extendName_eq, extendName_eq] at h
  exact label_injective (String.append_right_inj base |>.mp h)

end Variant

namespace Signature.IsChecked

variable {s : Signature} {v : Variant} {c d : Channel} {name : String}

theorem nodup_functionNames (hs : s.IsChecked) : (s.variants.map (·.extendName s.name)).Nodup :=
  hs.ordered.distinct.map_on fun _ _ _ _ heq => Variant.extendName_injective heq

theorem channelName_unique (hs : s.IsChecked) (hc : s.hasChannel v c) (hd : s.hasChannel v d)
    (hcn : s.channelName c = .ok name) (hdn : s.channelName d = .ok name) : c = d := by
  have hread := hs.channelOfName_channelName hc hcn
  rw [hs.channelOfName_channelName hd hdn] at hread
  exact (Except.ok.inj hread).symm

theorem channelName_not_mem_inputNames (hs : s.IsChecked) (hname : s.channelName c = .ok name) :
    name ∉ s.inputNames := by
  -- A derivative has a capital letter in its name.
  have hmarked {cs : List Char} (hcs : name.toList = 'D' :: cs) : name ∉ s.inputNames := by
    intro hmem
    have hfield : FieldName.isValidChars name.toList := hs.isFieldName_inputNames name hmem
    exact FieldName.capital_not_mem hfield (hcs ▸ List.mem_cons_self)
  cases c with
  | value o =>
    obtain ⟨hget, -⟩ := Channel.name_value_eq_ok_iff.mp hname
    have hdistinct := hs.distinct
    rw [List.map_append, List.nodup_append] at hdistinct
    intro hmem
    exact hdistinct.2.2 name hmem name (List.mem_of_getElem? hget) rfl
  | first o i =>
    obtain ⟨out, input, -, -, rfl⟩ := Channel.name_first_eq_ok_iff.mp hname
    exact hmarked (Channel.firstName_toList out input)
  | second o i j =>
    obtain ⟨out, a, b, -, -, -, rfl⟩ := Channel.name_second_eq_ok_iff.mp hname
    exact hmarked (Channel.secondName_toList out a b)

/-- Distinct channels of a variant have distinct names. -/
theorem nodup_channelNames (hs : s.IsChecked) {channels : List Channel} {names : List String}
    (hchannels : ∀ c ∈ channels, s.hasChannel v c) (hnodup : channels.Nodup)
    (hnames : List.Forall₂ (fun c n => s.channelName c = .ok n) channels names) : names.Nodup := by
  have hunique : Relator.BiUnique fun c n => s.hasChannel v c ∧ s.channelName c = .ok n :=
    ⟨fun c n d hc hd => hs.channelName_unique hc.1 hd.1 hc.2 hd.2,
      fun c n m hn hm => Except.ok.inj (hn.2.symm.trans hm.2)⟩
  refine (List.rel_nodup hunique ?_).mp hnodup
  exact (List.forall₂_and_left _ _).mpr ⟨hchannels, hnames⟩

end Signature.IsChecked

/-- Each parameter has a name of its own, which is an identifier and not the name in a remark. -/
structure Prototype.IsClashFree (slots : List Slot) : Prop where
  identifiers : ∀ n ∈ slots.filterMap Slot.declared?, isIdentifier n
  distinct : (slots.filterMap Slot.declared?).Nodup
  remarked : ∀ n ∈ slots.filterMap Slot.remarked?, n ∉ slots.filterMap Slot.declared?

namespace Header

variable {h : Header} {v : Variant} {slots ins outs remarks : List Slot}

/-- The names in the slots of a variant are those of its inputs and channels. -/
structure HasNames (h : Header) (v : Variant) (slots : List Slot) : Prop where
  declared : ∃ names, List.Forall₂ (fun c n => h.channelName c = .ok n) (h.emitted v) names ∧
    slots.filterMap Slot.declared? = h.inputNames ++ names
  remarked : List.Forall₂ (fun x n => h.channelName x.1 = .ok n) (h.remarks v)
    (slots.filterMap Slot.remarked?)

/-- The functions of a header have different names, and no prototype has a clash of names in it. -/
def IsClashFree (h : Header) : Prop :=
  ∃ prototypes : List (String × List Slot), (prototypes.map Prod.fst).Nodup ∧
    List.Forall₂ (fun v p => h.HasPrototype v p.1 p.2 ∧ h.HasNames v p.2 ∧
      Prototype.IsClashFree p.2) h.variants prototypes

theorem forall₂_remarkSlots (hp : h.HasParameters v ins outs)
    (hslots : h.slots v = .ok (ins ++ outs ++ remarks)) :
    List.Forall₂ (fun x slot => h.remarkSlot x.1 x.2 = .ok slot) (h.remarks v) remarks := by
  simp only [Header.slots, bind_eq_ok, hp.slots, pure_eq_ok] at hslots
  obtain ⟨_, ⟨⟩, _, hremarks, heq⟩ := hslots
  rw [List.append_cancel_left heq] at hremarks
  exact mapM_eq_ok_iff.mp hremarks

theorem declared_inputs (hc : h.IsChecked) (hp : h.HasParameters v ins outs) :
    ins.filterMap Slot.declared? = h.inputNames := by
  have hnames : List.Forall₂ (fun x n => x.name = n) h.inputs (ins.filterMap Slot.declared?) := by
    refine forall₂_filterMap ((List.forall₂_and_left _ _).mpr ⟨fun _ hx => hx, hp.inputs⟩ |>.imp ?_)
    rintro x slot ⟨hx, hslot⟩
    have hmem := List.mem_append_left h.outputs hx
    rw [inputSlot_eq (hc.types x hmem)] at hslot
    obtain rfl := Except.ok.inj hslot
    exact ⟨x.name,
      Slot.declared?_input (FieldName.isValidChars_identifier (hc.fieldNames x hmem)) _ _, rfl⟩
  rw [← List.forall₂_map_left_iff, List.forall₂_eq_eq_eq] at hnames
  exact hnames.symm

theorem declared_outputs (hp : h.HasParameters v ins outs) :
    List.Forall₂ (fun c n => h.channelName c = .ok n) (h.emitted v)
      (outs.filterMap Slot.declared?) := by
  refine forall₂_filterMap (hp.outputs.imp fun c slot hslot => ?_)
  obtain ⟨type, name, -, hname, rfl⟩ := channelSlot_eq_ok_iff.mp hslot
  exact ⟨name, Slot.declared?_output (Channel.isIdentifier_name hname) type, hname⟩

theorem remarked_remarks
    (hremarks : List.Forall₂ (fun x slot => h.remarkSlot x.1 x.2 = .ok slot) (h.remarks v)
      remarks) :
    List.Forall₂ (fun x n => h.channelName x.1 = .ok n) (h.remarks v)
      (remarks.filterMap Slot.remarked?) := by
  refine forall₂_filterMap (hremarks.imp fun x slot hslot => ?_)
  obtain ⟨name, hname, hslot⟩ := bind_eq_ok.mp hslot
  obtain rfl := pure_eq_ok.mp hslot
  exact ⟨name, Slot.remarked?_remarkText (Channel.isIdentifier_name hname) x.2, hname⟩

theorem hasNames_slots (hc : h.IsChecked) (hp : h.HasParameters v ins outs)
    (hslots : h.slots v = .ok (ins ++ outs ++ remarks))
    (hremarks : ∀ slot ∈ remarks, slot.isParameter = false) :
    h.HasNames v (ins ++ outs ++ remarks) := by
  have hundeclared : remarks.filterMap Slot.declared? = [] := by
    rw [List.filterMap_eq_nil_iff]
    intro slot hslot
    cases slot with
    | parameter text => cases hremarks _ hslot
    | remark text => rfl
  have hunremarked : (ins ++ outs).filterMap Slot.remarked? = [] := by
    rw [List.filterMap_eq_nil_iff]
    intro slot hslot
    cases slot with
    | parameter text => rfl
    | remark text => cases hp.isParameter _ hslot
  refine ⟨⟨outs.filterMap Slot.declared?, declared_outputs hp, ?_⟩, ?_⟩
  · rw [List.filterMap_append, List.filterMap_append, declared_inputs hc hp, hundeclared,
      List.append_nil]
  · rw [List.filterMap_append, hunremarked, List.nil_append]
    exact remarked_remarks (forall₂_remarkSlots hp hslots)

theorem isClashFree_of_hasNames (hc : h.IsChecked) (hnames : h.HasNames v slots) :
    Prototype.IsClashFree slots := by
  obtain ⟨⟨names, hout, hdeclared⟩, hremarked⟩ := hnames
  have hchannel : ∀ c ∈ h.emitted v, h.hasChannel v c := fun c hmem => (mem_emitted.mp hmem).1
  refine ⟨fun n hn => ?_, ?_, fun n hn => ?_⟩
  · rw [hdeclared, List.mem_append] at hn
    rcases hn with hn | hn
    · exact FieldName.isValidChars_identifier (hc.isFieldName_inputNames n hn)
    · obtain ⟨c, -, hname⟩ := forall₂_exists_left hout hn
      exact Channel.isIdentifier_name hname
  · rw [hdeclared, List.nodup_append]
    refine ⟨hc.inputNames_nodup, hc.nodup_channelNames hchannel (h.nodup_emitted v) hout, ?_⟩
    rintro n hinput m hn rfl
    obtain ⟨c, -, hname⟩ := forall₂_exists_left hout hn
    exact hc.channelName_not_mem_inputNames hname hinput
  · obtain ⟨x, hx, hname⟩ := forall₂_exists_left hremarked hn
    obtain ⟨hremark, hsome, -⟩ := mem_remarks.mp hx
    rw [hdeclared, List.mem_append, not_or]
    refine ⟨hc.channelName_not_mem_inputNames hname, fun hmem => ?_⟩
    -- A channel with the same name is the same, and it is not emitted since it is constant.
    obtain ⟨c, hc', hname'⟩ := forall₂_exists_left hout hmem
    obtain rfl := hc.channelName_unique hremark (hchannel c hc') hname hname'
    rw [(mem_emitted.mp hc').2] at hsome
    cases hsome

/-- Nothing that a constructed header prints declares a name twice. -/
theorem isClashFree_of_isConstructed (hc : h.IsConstructed) : h.IsClashFree := by
  have hchecked := hc.isChecked
  have hprototype : ∀ v ∈ h.variants, ∃ p : String × List Slot, p.1 = v.extendName h.name ∧
      h.HasPrototype v p.1 p.2 ∧ h.HasNames v p.2 ∧ Prototype.IsClashFree p.2 := by
    intro v hv
    obtain ⟨ins, outs, hp⟩ := exists_parameters hchecked v
    obtain ⟨remarks, hslots, hremarks⟩ := exists_remarks hchecked hp
    have hnames := hasNames_slots hchecked hp hslots hremarks
    exact ⟨(_, _), rfl, hasPrototype hchecked (decide_eq_true hv) hp hslots hremarks, hnames,
      isClashFree_of_hasNames hchecked hnames⟩
  obtain ⟨prototypes, hprototypes⟩ := exists_forall₂ hprototype
  refine ⟨prototypes, ?_, hprototypes.imp fun _ _ hp => hp.2⟩
  have hfunctions :
      List.Forall₂ (fun v f => v.extendName h.name = f) h.variants (prototypes.map Prod.fst) := by
    rw [List.forall₂_map_right_iff]
    exact hprototypes.imp fun _ _ hp => hp.1.symm
  rw [← List.forall₂_map_left_iff, List.forall₂_eq_eq_eq] at hfunctions
  rw [← hfunctions]
  exact hchecked.nodup_functionNames

/-- The names of the variables look like the marks in the names of the derivatives. -/
theorem isClashFree_underscores :
    ∃ h : Header, ofParts "f" [⟨"double", "_d_"⟩, ⟨"T", "d2_"⟩] [⟨"double", "d"⟩, ⟨"T", "_"⟩]
      [⟨true, true⟩, ⟨true,
        false⟩, .plain] (ChannelMap.empty.insert (.second 1 0 1) (.nearest true 5 2)) = .ok h ∧
      h.IsClashFree := by
  obtain ⟨h, hh⟩ :=
    exists_of_isOk (x := ofParts "f" [⟨"double", "_d_"⟩, ⟨"T", "d2_"⟩] [⟨"double", "d"⟩, ⟨"T", "_"⟩]
      [⟨true, true⟩, ⟨true, false⟩, .plain]
      (ChannelMap.empty.insert (.second 1 0 1) (.nearest true 5 2))) (by decide +kernel)
  exact ⟨h, hh, isClashFree_of_isConstructed (.inl ⟨_, _, _, _, _, hh⟩)⟩

end Header

end DerivativeHeaders
