import DerivativeHeaders.Proofs.Call.Consumed
import DerivativeHeaders.Proofs.Header.Slots

/-! # Calls and prototypes

A call names the function of its variant, and its arguments stand where the parameters of the
prototype are: the inputs first, and then for each emitted channel an address of its type.
-/
namespace DerivativeHeaders

open Outcome Prototype

namespace Header

variable {h : Header} {v : Variant} {u : Usage} {c : Channel} {space : Option String}
  {site : CallStatement}
  {function : String} {slots ins outs remarks : List Slot}

/-- The function and the slots that the text of a header has for a variant, and its definition
likewise. -/
structure HasPrototype (h : Header) (v : Variant) (function : String)
    (slots : List Slot) : Prop where
  name_eq : h.functionName v = .ok function
  slots_eq : h.slots v = .ok slots
  printed : ∃ before after, h.print = .ok (String.intercalate "\n"
    (before ++ (markerLines v ++ layout ");" function slots ++ [""]) ++ after))
  /-- A definition has no remarks. -/
  defined : h.definitionHead v = .ok (layout ") \x7b" function (slots.filter Slot.isParameter))

/-- The argument for an emitted channel, and the pointer where it stands. -/
inductive Joins (h : Header) (u : Usage) (site : CallStatement) (c : Channel) : String → Slot → Prop
  | destination {d type name : String} (hd : u.destination? c = some d) (htype : h.HasType c type)
    (hname : h.channelName c = .ok name) :
    Joins h u site c ("&" ++ d) (.parameter (type ++ "* " ++ name))
  /-- The local variable is declared with the type that the pointer has. -/
  | unused {type name : String} (hc : ¬ u.Consumes c) (htype : h.HasType c type)
    (hname : h.channelName c = .ok name)
    (hlocal : "  " ++ type ++ " G_UNUSED_" ++ type ++ ";" ∈ site.lines) :
    Joins h u site c ("&G_UNUSED_" ++ type) (.parameter (type ++ "* " ++ name))

/-- The lines of a statement call a function with one argument for each parameter, in the same
order. -/
structure Fits (h : Header) (v : Variant) (u : Usage) (space : Option String) (site : CallStatement)
    (function : String) (parameters : List Slot) : Prop where
  lines : site.lines =
    CallStatement.block site.locals (space.elim "" (· ++ "::") ++ function) site.arguments
  length : site.arguments.length = parameters.length
  count : parameters.length = h.inputs.length + (h.emitted v).length
  inputs : ∀ (i : Nat) (x : Variable), h.inputs[i]? = some x → ∃ e text, u.inputs[i]? = some e ∧
    parameterText x.type x.name = .ok text ∧ site.arguments[i]? = some e ∧
    parameters[i]? = some (.parameter text)
  outputs : ∀ (i : Nat) (c : Channel), (h.emitted v)[i]? = some c →
    ∃ argument slot, h.Joins u site c argument slot ∧
    site.arguments[h.inputs.length + i]? = some argument ∧
    parameters[h.inputs.length + i]? = some slot

/-- The parameters of a variant: its inputs, and a pointer for each channel that it emits. -/
structure HasParameters (h : Header) (v : Variant) (ins outs : List Slot) : Prop where
  slots : h.parameterSlots v = .ok (ins ++ outs)
  inputs : List.Forall₂ (fun x slot => inputSlot x = .ok slot) h.inputs ins
  outputs : List.Forall₂ (fun c slot => h.channelSlot c = .ok slot) (h.emitted v) outs

theorem inputSlot_eq_ok_iff {x : Variable} {slot : Slot} :
    inputSlot x = .ok slot ↔ ∃ text, parameterText x.type x.name = .ok text ∧
      slot = .parameter text := by
  simp only [inputSlot, bind_eq_ok, pure_eq_ok, @eq_comm _ slot]

theorem channelSlot_eq_ok_iff {slot : Slot} : h.channelSlot c = .ok slot ↔
    ∃ type name, h.channelType c = .ok type ∧ h.channelName c = .ok name ∧
      slot = .parameter (type ++ "* " ++ name) := by
  simp only [channelSlot, bind_eq_ok, pure_eq_ok, @eq_comm _ slot, exists_and_left]

theorem exists_channelSlot (hc : h.IsChecked) (hchannel : h.hasChannel v c) :
    ∃ slot, h.channelSlot c = .ok slot := by
  obtain ⟨type, htype⟩ := Signature.exists_channelType hchannel
  obtain ⟨name, hname⟩ := hc.exists_channelName hchannel
  exact ⟨_, channelSlot_eq htype hname⟩

theorem hasParameters_of_forall₂
    (hins : List.Forall₂ (fun x slot => inputSlot x = .ok slot) h.inputs ins)
    (houts : List.Forall₂ (fun c slot => h.channelSlot c = .ok slot) (h.emitted v) outs) :
    h.HasParameters v ins outs := by
  refine ⟨?_, hins, houts⟩
  rw [parameterSlots, mapM_eq_ok_iff.mpr hins, mapM_eq_ok_iff.mpr houts]
  rfl

theorem exists_parameters (hc : h.IsChecked) (v : Variant) :
    ∃ ins outs, h.HasParameters v ins outs := by
  have hin : ∀ x ∈ h.inputs, ∃ slot, inputSlot x = .ok slot :=
    fun x hx => ⟨_, inputSlot_eq (hc.types x (List.mem_append_left _ hx))⟩
  have hout : ∀ c ∈ h.emitted v, ∃ slot, h.channelSlot c = .ok slot :=
    fun c hmem => exists_channelSlot hc (mem_emitted.mp hmem).1
  obtain ⟨ins, hins⟩ := exists_forall₂ hin
  obtain ⟨outs, houts⟩ := exists_forall₂ hout
  exact ⟨ins, outs, hasParameters_of_forall₂ hins houts⟩

theorem HasParameters.isParameter (hp : h.HasParameters v ins outs) :
    ∀ slot ∈ ins ++ outs, slot.isParameter := by
  intro slot hslot
  rcases List.mem_append.mp hslot with hslot | hslot
  · obtain ⟨x, -, hx⟩ := forall₂_exists_left hp.inputs hslot
    obtain ⟨text, -, rfl⟩ := inputSlot_eq_ok_iff.mp hx
    rfl
  · obtain ⟨c, -, hc⟩ := forall₂_exists_left hp.outputs hslot
    obtain ⟨type, name, -, -, rfl⟩ := channelSlot_eq_ok_iff.mp hc
    rfl

theorem HasParameters.filter_append (hp : h.HasParameters v ins outs)
    (hremarks : ∀ slot ∈ remarks, slot.isParameter = false) :
    (ins ++ outs ++ remarks).filter Slot.isParameter = ins ++ outs := by
  have hnone : remarks.filter Slot.isParameter = [] := by
    rw [List.filter_eq_nil_iff]
    intro slot hslot
    rw [hremarks slot hslot]
    exact Bool.false_ne_true
  rw [List.filter_append, List.filter_eq_self.mpr hp.isParameter, hnone, List.append_nil]

/-- The slots of a variant are its parameters and then remarks. -/
theorem exists_remarks (hc : h.IsChecked) (hp : h.HasParameters v ins outs) :
    ∃ remarks, h.slots v = .ok (ins ++ outs ++ remarks) ∧
      ∀ slot ∈ remarks, slot.isParameter = false := by
  have hremark : ∀ x ∈ h.remarks v, ∃ slot, h.remarkSlot x.1 x.2 = .ok slot ∧
      slot.isParameter = false := by
    intro x hmem
    obtain ⟨name, hname⟩ := hc.exists_channelName (mem_remarks.mp hmem).1
    exact ⟨_, remarkSlot_eq hname x.2, rfl⟩
  obtain ⟨remarks, hremarks⟩ := exists_forall₂ hremark
  refine ⟨remarks, ?_, fun slot hslot => ?_⟩
  · rw [Header.slots, hp.slots, mapM_eq_ok_iff.mpr (hremarks.imp fun _ _ hx => hx.1)]
    rfl
  · obtain ⟨x, -, -, hx⟩ := forall₂_exists_left hremarks hslot
    exact hx

theorem exists_blockLines_slots (hc : h.IsChecked) (v : Variant) : ∃ slots, h.slots v = .ok slots ∧
    h.blockLines v = .ok (markerLines v ++ layout ");" (v.extendName h.name) slots ++ [""]) := by
  obtain ⟨ins, outs, hp⟩ := exists_parameters hc v
  obtain ⟨remarks, hslots, -⟩ := exists_remarks hc hp
  refine ⟨_, hslots, ?_⟩
  rw [blockLines, prototypeLines, hslots, hc.functionName_eq]
  rfl

theorem exists_blocks (hc : h.IsChecked) :
    ∃ texts, List.Forall₂ (fun v lines => h.blockLines v = .ok lines) h.variants texts := by
  refine exists_forall₂ fun v _ => ?_
  obtain ⟨_, -, hlines⟩ := exists_blockLines_slots hc v
  exact ⟨_, hlines⟩

/-- A supported variant has a block in the text, whatever the names are. -/
theorem exists_printed (hc : h.IsChecked) (hv : h.supports v) (hslots : h.slots v = .ok slots) :
    ∃ before after, h.print = .ok (String.intercalate "\n"
      (before ++ (markerLines v ++ layout ");" (v.extendName h.name) slots ++ [""]) ++ after)) := by
  obtain ⟨texts, htexts⟩ := exists_blocks hc
  obtain ⟨lines, hmem, hlines⟩ := forall₂_exists_right htexts (of_decide_eq_true hv)
  obtain ⟨slots', hslots', hlines'⟩ := exists_blockLines_slots hc v
  obtain rfl : slots = slots' := Except.ok.inj (hslots.symm.trans hslots')
  obtain rfl := Except.ok.inj (hlines.symm.trans hlines')
  -- The block of the variant is one of the printed ones, so the lines are split around it.
  obtain ⟨before, after, rfl⟩ := List.append_of_mem hmem
  refine ⟨before.flatten, after.flatten, ?_⟩
  have hlines : h.printLines = .ok (before.flatten ++
      (markerLines v ++ layout ");" (v.extendName h.name) slots ++ [""]) ++ after.flatten) := by
    rw [printLines, mapM_eq_ok_iff.mpr htexts,
      @List.append_assoc _ before.flatten, ← List.flatten_cons, ← List.flatten_append]
    rfl
  rw [print, hlines]
  rfl

theorem hasPrototype (hc : h.IsChecked) (hv : h.supports v) (hp : h.HasParameters v ins outs)
    (hslots : h.slots v = .ok (ins ++ outs ++ remarks))
    (hremarks : ∀ slot ∈ remarks, slot.isParameter = false) :
    h.HasPrototype v (v.extendName h.name) (ins ++ outs ++ remarks) := by
  refine ⟨hc.functionName_eq v, hslots, exists_printed hc hv hslots, ?_⟩
  rw [hp.filter_append hremarks, definitionHead, hv, hp.slots, hc.functionName_eq]
  rfl

/-- The parameter where the argument of an emitted channel stands. -/
theorem joins_of_passes {argument : String} {slot : Slot} (hsite : h.Accounts v u site)
    (hmem : c ∈ h.emitted v)
    (hpasses : h.Passes u c argument) (hslot : h.channelSlot c = .ok slot) :
    h.Joins u site c argument slot := by
  obtain ⟨type, name, htype, hname, rfl⟩ := channelSlot_eq_ok_iff.mp hslot
  have htype := Signature.channelType_eq_ok_iff.mp htype
  cases hpasses with
  | destination hd => exact .destination hd htype hname
  | @unused other hnot hother =>
    obtain rfl := hother.unique htype
    have hlocal := (hsite.locals other).mpr ⟨c, hmem, hnot, hother⟩
    refine .unused hnot htype hname ?_
    rw [hsite.lines]
    exact List.mem_append_left _ (List.mem_append_right _ (List.mem_map_of_mem hlocal))

theorem fits_of_call (hc : h.IsChecked) (hcall : h.call v u space = .ok site)
    (hp : h.HasParameters v ins outs) :
    h.Fits v u space site (v.extendName h.name) (ins ++ outs) := by
  have hsuits := (exists_call_iff hc).mp ⟨site, hcall⟩
  have hsite := accounts_of_call hc hcall
  obtain ⟨arguments, harguments, hpasses⟩ := hsite.arguments
  have hins : ins.length = h.inputs.length := hp.inputs.length_eq.symm
  have hcount : (ins ++ outs).length = h.inputs.length + (h.emitted v).length := by
    rw [List.length_append, hins, hp.outputs.length_eq]
  refine ⟨?_, ?_, hcount, fun i x hx => ?_, fun i c hget => ?_⟩
  · obtain ⟨-, -, targets, -, rfl⟩ := (call_eq_ok_iff hc).mp hcall
    exact hsite.lines
  · rw [harguments, hcount, List.length_append, hsuits.inputs, hpasses.length_eq]
  · obtain ⟨slot, hslot, hinput⟩ := forall₂_getElem? hp.inputs hx
    obtain ⟨text, htext, rfl⟩ := inputSlot_eq_ok_iff.mp hinput
    obtain ⟨hi, -⟩ := List.getElem?_eq_some_iff.mp hx
    have hlt : i < u.inputs.length := hsuits.inputs ▸ hi
    refine ⟨u.inputs[i], text, List.getElem?_eq_getElem hlt, htext, ?_, ?_⟩
    · rw [harguments, List.getElem?_append_left hlt, List.getElem?_eq_getElem hlt]
    · rw [List.getElem?_append_left (hins ▸ hi), hslot]
  · obtain ⟨argument, hargument, hpass⟩ := forall₂_getElem? hpasses hget
    obtain ⟨slot, hslot, houtput⟩ := forall₂_getElem? hp.outputs hget
    refine ⟨argument, slot, joins_of_passes hsite (List.mem_of_getElem? hget) hpass houtput, ?_, ?_⟩
    · rw [harguments, ← hsuits.inputs, List.getElem?_append_right (Nat.le_add_right _ i),
        Nat.add_sub_cancel_left, hargument]
    · rw [← hins, List.getElem?_append_right (Nat.le_add_right _ i), Nat.add_sub_cancel_left, hslot]

/-- A call that is made fits the prototype that the text and the definition have for its variant. -/
theorem call_fits_prototype (hc : h.IsConstructed) (hcall : h.call v u space = .ok site) :
    ∃ function slots, h.HasPrototype v function slots ∧
      h.Fits v u space site function (slots.filter Slot.isParameter) := by
  have hchecked := hc.isChecked
  have hsuits := (exists_call_iff hchecked).mp ⟨site, hcall⟩
  obtain ⟨ins, outs, hp⟩ := exists_parameters hchecked v
  obtain ⟨remarks, hslots, hremarks⟩ := exists_remarks hchecked hp
  refine ⟨v.extendName h.name, ins ++ outs ++ remarks,
    hasPrototype hchecked hsuits.supported hp hslots hremarks, ?_⟩
  rw [hp.filter_append hremarks]
  exact fits_of_call hchecked hcall hp

def sharingSlots : List Slot :=
  [.parameter "double x", .parameter "double* y", .parameter "int* n", .parameter "int* D_n_D_x",
    .remark "/* D_y_D_x = -2.500000 */"]

theorem call_fits_prototype_sharing : ∃ h site, sharing = .ok h ∧
    h.call ⟨true, false⟩ sharingUsage (some "g") = .ok site ∧ site.lines = sharingLines ∧
      h.HasPrototype ⟨true, false⟩ "fWithFirstOrderDerivatives" sharingSlots ∧
        h.Fits ⟨true, false⟩ sharingUsage (some "g") site "fWithFirstOrderDerivatives"
          (sharingSlots.filter Slot.isParameter) := by
  have hlines : sharingCall.toOption.map CallStatement.lines = some sharingLines := by
    decide +kernel
  have hnames : (sharing.toOption.bind fun h => (h.functionName ⟨true, false⟩).toOption) =
      some "fWithFirstOrderDerivatives" := by decide +kernel
  have hslots : (sharing.toOption.bind fun h => (h.slots ⟨true, false⟩).toOption) =
      some sharingSlots := by decide +kernel
  obtain ⟨h, site, hh, hcall, hlines⟩ := exists_of_sharingCall hlines
  rw [hh] at hnames hslots
  obtain ⟨function, slots, hprototype, hfits⟩ :=
    call_fits_prototype (isConstructed_sharing hh) hcall
  obtain rfl := Except.ok.inj ((eq_ok_of_toOption hnames).symm.trans hprototype.name_eq)
  obtain rfl := Except.ok.inj ((eq_ok_of_toOption hslots).symm.trans hprototype.slots_eq)
  exact ⟨h, site, hh, hcall, hlines, hprototype, hfits⟩

end Header

end DerivativeHeaders
