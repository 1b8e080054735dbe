import DerivativeHeaders.Proofs.Header.Block
import DerivativeHeaders.Proofs.Header.Roles
import DerivativeHeaders.Proofs.Header.Words

/-! # The slots of a variant

A header whose names are words writes a slot for every input, every emitted channel and every
constant other than zero, and each slot is read as a field again.
-/
namespace DerivativeHeaders

open Outcome Prototype

namespace Header

variable {h : Header} {v : Variant} {c : Channel}

theorem isWord_type (hc : h.IsChecked) (hw : h.AvoidsKeywords) {x : Variable}
    (hx : x ∈ h.inputs ++ h.outputs) :
    IsWord x.type := ⟨hc.types x hx, (hw x hx).1⟩

theorem isWord_name (hc : h.IsChecked) (hw : h.AvoidsKeywords) {x : Variable}
    (hx : x ∈ h.inputs ++ h.outputs) :
    IsWord x.name :=
  ⟨FieldName.isValidChars_identifier (hc.fieldNames x hx), (hw x hx).2⟩

theorem isWord_channelName (hw : h.AvoidsKeywords) {name : String}
    (hname : h.channelName c = .ok name) :
    IsWord name := by
  refine ⟨Channel.isIdentifier_name hname, ?_⟩
  cases c with
  | value o =>
    obtain ⟨ho, -⟩ := Channel.name_value_eq_ok_iff.mp hname
    have hmem : name ∈ h.outputs.map Variable.name := List.mem_of_getElem? ho
    obtain ⟨x, hx, rfl⟩ := List.mem_map.mp hmem
    exact (hw x (List.mem_append_right _ hx)).2
  | first o i => exact Channel.isReserved_name hname Nat.one_pos
  | second o a b => exact Channel.isReserved_name hname Nat.two_pos

theorem parameterText_eq {type : String} (htype : isIdentifier type) (name : String) :
    parameterText type name = .ok ((Passing.ofName type).text type name) := by
  have hpassing : Passing.ofType type = .ok (Passing.ofName type) := if_pos htype
  rw [parameterText, hpassing]
  rfl

theorem inputSlot_eq {x : Variable} (htype : isIdentifier x.type) :
    inputSlot x = .ok (.parameter ((Passing.ofName x.type).text x.type x.name)) := by
  rw [inputSlot, parameterText_eq htype]
  rfl

theorem channelSlot_eq {type name : String} (htype : h.channelType c = .ok type)
    (hname : h.channelName c = .ok name) :
    h.channelSlot c = .ok (.parameter (type ++ "* " ++ name)) := by
  rw [channelSlot, htype, hname]
  rfl

theorem remarkSlot_eq {name : String} (hname : h.channelName c = .ok name) (x : Binary64) :
    h.remarkSlot c x = .ok (.remark (remarkText name x)) := by
  rw [remarkSlot, hname]
  rfl

/-- A channel of a variant has a name and a type, and both are words. -/
theorem exists_words (hc : h.IsChecked) (hw : h.AvoidsKeywords) (hchannel : h.hasChannel v c) :
    ∃ type name, h.channelType c = .ok type ∧ h.channelName c = .ok name ∧ IsWord type ∧
      IsWord name := by
  obtain ⟨type, htype⟩ := Signature.exists_channelType hchannel
  obtain ⟨name, hname⟩ := hc.exists_channelName hchannel
  obtain ⟨x, hx, rfl⟩ := Signature.channelType_eq_ok_iff.mp htype
  exact ⟨_, name, htype, hname,
    isWord_type hc hw (List.mem_append_right _ (List.mem_of_getElem? hx)),
    isWord_channelName hw hname⟩

def IsOutput (h : Header) (c : Channel) (field : Field) : Prop :=
  ∃ type name, h.channelType c = .ok type ∧ h.channelName c = .ok name ∧ field = .output type name

def IsRemark (h : Header) (x : Channel × Binary64) (field : Field) : Prop :=
  ∃ name, h.channelName x.1 = .ok name ∧ field = .constant name x.2

theorem exists_inputSlots (hc : h.IsChecked) (hw : h.AvoidsKeywords) : ∃ slots,
    h.inputs.mapM inputSlot = .ok slots ∧
      List.Forall₂ WrittenFor slots (h.inputs.map Field.input) := by
  have hslot : ∀ x ∈ h.inputs, ∃ slot field, inputSlot x = .ok slot ∧
      WrittenFor slot field ∧ .input x = field := by
    intro x hx
    have hmem := List.mem_append_left h.outputs hx
    have hfield := isFieldText_parameterText (isWord_type hc hw hmem) (isWord_name hc hw hmem)
      (parameterText_eq (hc.types x hmem) x.name)
    exact ⟨_, .input x, inputSlot_eq (hc.types x hmem), hfield, rfl⟩
  obtain ⟨slots, fields, hslots, hwritten, hfields⟩ := mapM_exists hslot
  have heq : h.inputs.map Field.input = fields := by
    rw [← List.forall₂_eq_eq_eq, List.forall₂_map_left_iff]
    exact hfields
  exact ⟨slots, hslots, heq ▸ hwritten⟩

theorem exists_outputSlots (hc : h.IsChecked) (hw : h.AvoidsKeywords) (v : Variant) :
    ∃ slots fields, (h.emitted v).mapM h.channelSlot = .ok slots ∧
      List.Forall₂ WrittenFor slots fields ∧
      List.Forall₂ h.IsOutput (h.emitted v) fields := by
  refine mapM_exists fun c hmem => ?_
  obtain ⟨type, name, htype, hname, hwtype, hwname⟩ := exists_words hc hw (mem_emitted.mp hmem).1
  exact ⟨_, .output type name, channelSlot_eq htype hname, isFieldText_output hwtype hwname,
    ⟨type, name, htype, hname, rfl⟩⟩

theorem exists_remarkSlots (hc : h.IsChecked) (hw : h.AvoidsKeywords) (v : Variant) :
    ∃ slots fields,
      (h.remarks v).mapM (fun x => h.remarkSlot x.1 x.2) = .ok slots ∧
        List.Forall₂ WrittenFor slots fields ∧ List.Forall₂ h.IsRemark (h.remarks v) fields := by
  refine mapM_exists fun x hmem => ?_
  obtain ⟨hchannel, hget, hzero⟩ := mem_remarks.mp hmem
  obtain ⟨hfinite, -, hkept⟩ := hc.values x.1 x.2 hget
  obtain ⟨-, name, -, hname, -, hwname⟩ := exists_words hc hw hchannel
  exact ⟨_, .constant name x.2, remarkSlot_eq hname x.2,
    isFieldText_remark hwname hfinite hkept hzero, ⟨name, hname, rfl⟩⟩

/-- What the prototype of a variant has to be read as. -/
def HasFields (h : Header) (v : Variant) (fields : List Field) : Prop :=
  ∃ outs remarks, fields = h.inputs.map Field.input ++ outs ++ remarks ∧
    List.Forall₂ h.IsOutput (h.emitted v) outs ∧ List.Forall₂ h.IsRemark (h.remarks v) remarks

theorem exists_slots (hc : h.IsChecked) (hw : h.AvoidsKeywords) (v : Variant) :
    ∃ slots fields, h.slots v = .ok slots ∧ List.Forall₂ WrittenFor slots fields ∧
      h.HasFields v fields := by
  obtain ⟨inputs, hinputs, hwritten⟩ := exists_inputSlots hc hw
  obtain ⟨outs, outFields, houts, hwritten', houtFields⟩ := exists_outputSlots hc hw v
  obtain ⟨remarks, remarkFields, hremarks, hwritten'', hremarkFields⟩ := exists_remarkSlots hc hw v
  refine ⟨inputs ++ outs ++ remarks, h.inputs.map Field.input ++ outFields ++ remarkFields, ?_, ?_,
    ⟨outFields, remarkFields, rfl, houtFields, hremarkFields⟩⟩
  · simp only [slots, parameterSlots, hinputs, houts, hremarks]
    rfl
  · exact List.rel_append (List.rel_append hwritten hwritten') hwritten''

end Header

end DerivativeHeaders
