import DerivativeHeaders.Proofs.Call.Prototype
import DerivativeHeaders.Proofs.Channel.Decode
import DerivativeHeaders.Proofs.Header.Description

/-! # Faults of a header

A constructed header is printed and described whatever its names are, and its channels have names
and types as far as they fit. What can still go wrong is what is asked for: a variant that is not
supported, or a call that the header does not offer.
-/
namespace DerivativeHeaders

open Outcome

namespace Header

variable {h : Header} {v : Variant} {u : Usage} {c : Channel} {space : Option String}
  {fault : Fault}

/-- What can be wrong with a call. -/
inductive CallFault (h : Header) (v : Variant) (u : Usage) (space : Option String) : Fault → Prop
  | space {path : String} (hspace : space = some path) (hpath : ¬ isQualifiedPath path) :
    CallFault h v u space (.qualifiedPath path)
  | variant (hv : ¬ h.supports v) : CallFault h v u space (.unsupportedVariant v)
  | inputs (hinputs : u.inputs.length ≠ h.inputs.length) :
    CallFault h v u space (.inputCount h.inputs.length u.inputs.length)
  | unavailable {c : Channel} (hc : u.Consumes c) (hnot : c ∉ h.channels v) :
    CallFault h v u space (.unavailableChannel (h.channelText c) v)
  | destination {c : Channel} {name : String} (hc : c ∈ h.emitted v) (hconsumes : u.Consumes c)
    (hnone : u.destination? c = none) (hname : h.channelName c = .ok name) :
    CallFault h v u space (.noDestination name)

/-- No computation on a header fails for a reason that lies in the header. -/
structure IsTotal (h : Header) : Prop where
  printed : ∃ lines, h.printLines = .ok lines ∧ h.print = .ok ("\n".intercalate lines)
  described : ∃ d, h.toDescription = .ok d
  defined : ∀ v, (∃ lines, h.definitionHead v = .ok lines) ↔ h.supports v
  defined_fault : ∀ v fault, h.definitionHead v = .error fault → fault = .unsupportedVariant v
  /-- The slots of a variant are there even if the variant is not supported. -/
  slots : ∀ v, ∃ parameters remarks, h.parameterSlots v = .ok parameters ∧
    h.slots v = .ok (parameters ++ remarks)
  named : ∀ c, (∃ name, h.channelName c = .ok name) ↔ c.fits h.inputs.length h.outputs.length
  channels : ∀ v, ∀ c ∈ h.channels v, ∃ name type, h.channelName c = .ok name ∧
    h.channelType c = .ok type
  called : ∀ v u space fault, h.call v u space = .error fault → h.CallFault v u space fault

/-- The names of the variables are field names, so only the indices of a channel decide whether it
has a name. -/
theorem exists_channelName_iff (hc : h.IsChecked) :
    (∃ name, h.channelName c = .ok name) ↔ c.fits h.inputs.length h.outputs.length := by
  have hfields : c.HasFieldNames h.outputNames h.inputNames :=
    ⟨fun n hn => hc.isFieldName_outputNames n (List.mem_of_getElem? hn),
      fun i _ n hn => hc.isFieldName_inputNames n (List.mem_of_getElem? hn)⟩
  have hlengths : h.inputNames.length = h.inputs.length ∧ h.outputNames.length = h.outputs.length :=
    ⟨List.length_map .., List.length_map ..⟩
  rw [Signature.channelName, Channel.exists_name_iff, and_iff_left hfields, hlengths.1, hlengths.2]

theorem exists_printLines (hc : h.IsChecked) : ∃ lines, h.printLines = .ok lines := by
  obtain ⟨texts, htexts⟩ := exists_blocks hc
  refine ⟨texts.flatten, ?_⟩
  rw [printLines, mapM_eq_ok_iff.mpr htexts]
  rfl

theorem exists_declaration (hc : h.IsChecked) (hchannel : h.hasChannel v c) :
    ∃ text, h.declaration c = .ok text := by
  obtain ⟨name, hname⟩ := hc.exists_channelName hchannel
  rw [declaration, hname]
  simp only [bind, Except.bind]
  cases h.constants.get? c with
  | none => exact ⟨_, rfl⟩
  | some x => cases hzero : x.isZero <;> simp [hzero, pure, Except.pure]

theorem exists_toDescription (hc : h.IsChecked) : ∃ d, h.toDescription = .ok d := by
  obtain ⟨texts, htexts⟩ :=
    exists_forall₂ fun c hmem => exists_declaration hc (mem_derivatives.mp hmem).1
  obtain ⟨names, hnames, -⟩ := Variant.ofShortNames_shortNames hc.ordered.registered
  refine ⟨⟨h.name, variablesText h.inputs, variablesText h.outputs,
    ", ".intercalate (texts.filterMap id), names⟩, ?_⟩
  rw [toDescription, mapM_eq_ok_iff.mpr htexts, hnames]
  rfl

theorem definitionHead_of_supports (hc : h.IsChecked) (hv : h.supports v) :
    ∃ lines, h.definitionHead v = .ok lines := by
  obtain ⟨ins, outs, hp⟩ := exists_parameters hc v
  obtain ⟨remarks, hslots, hremarks⟩ := exists_remarks hc hp
  exact ⟨_, (hasPrototype hc hv hp hslots hremarks).defined⟩

theorem definitionHead_of_not_supports (hv : ¬ h.supports v) :
    h.definitionHead v = .error (.unsupportedVariant v) := by
  rw [definitionHead, Bool.eq_false_of_not_eq_true hv]
  rfl

theorem callFault_of_checkNamespace (hfault : checkNamespace space = .error fault) :
    h.CallFault v u space fault := by
  cases space with
  | none => cases hfault
  | some path =>
    rw [checkNamespace] at hfault
    split at hfault
    · cases hfault
    · rename_i hpath
      cases hfault
      exact .space rfl hpath

theorem callFault_of_checkUsage (hfault : h.checkUsage v u = .error fault) :
    h.CallFault v u space fault := by
  rw [checkUsage] at hfault
  by_cases hv : h.supports v
  · by_cases hinputs : u.inputs.length = h.inputs.length
    · simp only [hv, hinputs, Bool.not_true, Bool.false_eq_true, ne_eq, not_true_eq_false,
        ↓reduceIte] at hfault
      split at hfault
      · rename_i c hfind
        cases hfault
        have hconsumes : u.Consumes c :=
          ChannelMap.mem_keys_iff.mp (List.mem_of_find?_eq_some hfind)
        refine .unavailable hconsumes fun hmem => ?_
        have hnot := List.find?_some hfind
        rw [Signature.mem_channels.mp hmem] at hnot
        cases hnot
      · cases hfault
    · simp only [hv, hinputs, Bool.not_true, Bool.false_eq_true, ne_eq, not_false_eq_true,
        ↓reduceIte] at hfault
      cases hfault
      exact .inputs hinputs
  · simp only [hv, Bool.not_false, ↓reduceIte] at hfault
    cases hfault
    exact .variant hv

theorem callFault_of_target (hc : h.IsChecked) (hmem : c ∈ h.emitted v)
    (hfault : h.target u c = .error fault) :
    h.CallFault v u space fault := by
  have hchannel := (mem_emitted.mp hmem).1
  rw [target] at hfault
  split at hfault
  · cases hfault
  · rename_i hget
    cases hfault
    obtain ⟨name, hname⟩ := hc.exists_channelName hchannel
    have htext : h.channelText c = name := by rw [Signature.channelText, hname]
    rw [htext]
    refine .destination hmem (ChannelMap.contains_iff.mpr ⟨_, hget⟩) ?_ hname
    rw [Usage.destination?, hget]
    rfl
  · obtain ⟨type, htype⟩ := Signature.exists_channelType hchannel
    rw [htype] at hfault
    cases hfault

theorem callFault_of_call (hc : h.IsChecked) (hfault : h.call v u space = .error fault) :
    h.CallFault v u space fault := by
  simp only [call, bind_eq_error, calleeName_eq hc] at hfault
  rcases hfault with
    hspace | ⟨_, -, husage | ⟨_, -, htargets | ⟨targets, -, hcallee | ⟨callee, -, hpure⟩⟩⟩⟩
  · exact callFault_of_checkNamespace hspace
  · exact callFault_of_checkUsage husage
  · obtain ⟨c, hmem, htarget⟩ := exists_of_mapM_eq_error htargets
    exact callFault_of_target hc hmem htarget
  · cases hcallee
  · cases hpure

theorem isTotal_of_isConstructed (hc : h.IsConstructed) : h.IsTotal where
  printed := by
    obtain ⟨lines, hlines⟩ := exists_printLines hc.isChecked
    refine ⟨lines, hlines, ?_⟩
    rw [print, hlines]
    rfl
  described := exists_toDescription hc.isChecked
  defined v := by
    refine ⟨?_, definitionHead_of_supports hc.isChecked⟩
    rintro ⟨lines, hlines⟩
    by_contra hv
    rw [definitionHead_of_not_supports hv] at hlines
    cases hlines
  defined_fault v fault hfault := by
    by_cases hv : h.supports v
    · obtain ⟨lines, hlines⟩ := definitionHead_of_supports hc.isChecked hv
      rw [hlines] at hfault
      cases hfault
    · rw [definitionHead_of_not_supports hv] at hfault
      cases hfault
      rfl
  slots v := by
    obtain ⟨ins, outs, hp⟩ := exists_parameters hc.isChecked v
    obtain ⟨remarks, hslots, -⟩ := exists_remarks hc.isChecked hp
    exact ⟨ins ++ outs, remarks, hp.slots, hslots⟩
  named c := exists_channelName_iff hc.isChecked
  channels v c hmem := by
    have hchannel := Signature.mem_channels.mp hmem
    obtain ⟨name, hname⟩ := hc.isChecked.exists_channelName hchannel
    obtain ⟨type, htype⟩ := Signature.exists_channelType hchannel
    exact ⟨name, type, hname, htype⟩
  called v u space fault hfault := callFault_of_call hc.isChecked hfault

/-- All names are keywords. -/
theorem isTotal_of_keywords :
    ∃ h : Header, ofParts "void" [⟨"void", "const"⟩] [⟨"const", "void"⟩] [⟨true, true⟩, .plain]
      (ChannelMap.empty.insert (.second 0 0 0) (.nearest true 5 2)) = .ok h ∧ h.IsTotal := by
  obtain ⟨h, hh⟩ := exists_of_isOk (x := ofParts "void" [⟨"void", "const"⟩] [⟨"const", "void"⟩]
    [⟨true, true⟩, .plain] (ChannelMap.empty.insert (.second 0 0 0) (.nearest true 5 2)))
    (by decide +kernel)
  exact ⟨h, hh, isTotal_of_isConstructed (.inl ⟨_, _, _, _, _, hh⟩)⟩

end Header

end DerivativeHeaders
