import DerivativeHeaders.Proofs.Declaration
import DerivativeHeaders.Proofs.Header.Derivatives
import DerivativeHeaders.Proofs.Header.Roles

/-! # What a description means

A description is accepted exactly when each of its lists is in order by itself and no two of its
derivative declarations contradict each other. The header then has the variables of the lists, and
for every derivative what a declaration says of it, or the constant zero.
-/
namespace DerivativeHeaders

open Outcome Ledger

namespace Description

/-- The declarations in the lists of a description. -/
structure Lists where
  inputs : List Declaration
  outputs : List Declaration
  derivatives : List Declaration

/-- The variables in the order of the lists, and the variants in the order of the registry. -/
def signature (d : Description) (x : Lists) : Signature where
  name := d.name
  inputs := x.inputs.filterMap Declaration.declared?
  outputs := x.outputs.filterMap Declaration.declared?
  variants := Variant.named d.variants

structure IsInOrder (d : Description) (x : Lists) : Prop where
  name : isIdentifier d.name
  inputs : Declaration.IsListOf d.inputs.toList x.inputs
  outputs : Declaration.IsListOf d.outputs.toList x.outputs
  /-- Every variable has a type and no value. -/
  typed : ∀ item ∈ x.inputs ++ x.outputs, item.type.isSome ∧ item.value = none
  fieldNames : ∀ item ∈ x.inputs ++ x.outputs, isFieldName item.name.value
  distinct : ((x.inputs ++ x.outputs).map fun item => item.name.value).Nodup
  registered : ∀ n ∈ d.variants, n ∈ Variant.registry.map Prod.fst
  unrepeated : d.variants.Nodup
  plain : "d0" ∈ d.variants
  derivatives : Declaration.IsListOf d.derivatives.toList x.derivatives
  allowed : (d.signature x).AllowsAll x.derivatives

variable {d : Description} {x : Lists}

/-- The types of variables that were read are identifiers, so only their names have to be
checked. -/
theorem check_signature_iff (hinputs : Declaration.IsListOf d.inputs.toList x.inputs)
    (houtputs : Declaration.IsListOf d.outputs.toList x.outputs)
    (htyped : ∀ item ∈ x.inputs ++ x.outputs, item.type.isSome) : (d.signature x).check = .ok () ↔
      isIdentifier d.name ∧ (∀ item ∈ x.inputs ++ x.outputs, isFieldName item.name.value) ∧
        ((x.inputs ++ x.outputs).map fun item => item.name.value).Nodup := by
  have hvariables : (d.signature x).inputs ++ (d.signature x).outputs =
      (x.inputs ++ x.outputs).filterMap Declaration.declared? := List.filterMap_append.symm
  have hnames := Declaration.map_name_declared htyped
  have htypes :
      ∀ p ∈ (x.inputs ++ x.outputs).filterMap Declaration.declared?, isIdentifier p.type := by
    intro p hp
    obtain ⟨item, hitem, hdeclared⟩ := List.mem_filterMap.mp hp
    obtain ⟨type, htype, rfl⟩ := Option.map_eq_some_iff.mp hdeclared
    rcases List.mem_append.mp hitem with hitem | hitem
    · exact (Declaration.isIdentifier_of_isListOf hinputs item hitem).2 type htype
    · exact (Declaration.isIdentifier_of_isListOf houtputs item hitem).2 type htype
  have hfields :
      (∀ p ∈ (x.inputs ++ x.outputs).filterMap Declaration.declared?, isFieldName p.name) ↔
      ∀ item ∈ x.inputs ++ x.outputs, isFieldName item.name.value := by
    rw [← List.forall_mem_map (f := Variable.name) (P := fun n => isFieldName n), hnames,
      List.forall_mem_map]
  rw [Signature.check_eq_ok_iff, hvariables, hnames]
  refine and_congr_right fun _ => and_congr_left fun _ => ?_
  rw [← hfields]
  exact ⟨fun h p hp => (h p hp).2, fun h p hp => ⟨htypes p hp, h p hp⟩⟩

end Description

namespace Header

variable {h : Header} {d : Description} {x : Description.Lists}

/-- The header has for every derivative what a declaration says of it, or the constant zero. -/
structure HasDeclared (h : Header) (ds : List Declaration) : Prop where
  emitted : ∀ c ∈ h.channels h.widest, 0 < c.order →
    (c ∈ h.emitted h.widest ↔ ∃ d ∈ ds, h.IsAbout d c ∧ d.value = none)
  constant : ∀ c ∈ h.channels h.widest, 0 < c.order → ∀ d ∈ ds, h.IsAbout d c →
    ∀ x, d.value = some x → h.constants.get? c = some x.asPrinted
  zero : ∀ c ∈ h.channels h.widest, 0 < c.order → (∀ d ∈ ds, ¬ h.IsAbout d c) →
    h.constants.get? c = some .zero
  keys : ∀ c, h.constants.contains c → c ∈ h.channels h.widest ∧ 0 < c.order

theorem ofDescription_eq_ok_iff_completes : ofDescription d = .ok h ↔
    ∃ x, d.IsInOrder x ∧ h.toSignature = d.signature x ∧
      ∃ l, h.Completes x.derivatives l ∧ h.constants = l.constants := by
  rw [ofDescription_eq_ok_iff]
  constructor
  · rintro ⟨inputs, outputs, variants, ds, declared, l, hinputs, houtputs, hvariants, hs, hds,
      hdeclared, hl, hh⟩
    obtain ⟨ins, hins, htyped, rfl⟩ := Variable.ofSource_eq_ok_iff.mp hinputs
    obtain ⟨outs, houts, htyped', rfl⟩ := Variable.ofSource_eq_ok_iff.mp houtputs
    obtain ⟨vs, hvs, hsignature, hcheck⟩ := Signature.ofParts_eq_ok_iff.mp hs
    obtain ⟨⟨hregistered, hunrepeated, hplain⟩, rfl⟩ :=
      Variant.inOrder_ofShortNames_iff.mp ⟨variants, hvariants, hvs⟩
    obtain ⟨hchecked, hheader⟩ := ofSignature_eq_ok_iff.mp hh
    have hds := Declaration.ofSource_eq_ok_iff.mp hds
    have hcompletes := Signature.completes_of_declare hdeclared hl
    have htyped : ∀ item ∈ ins ++ outs, item.type.isSome ∧ item.value = none := by
      intro item hitem
      rcases List.mem_append.mp hitem with hitem | hitem
      · exact htyped item hitem
      · exact htyped' item hitem
    have hallowed : h.AllowsAll ds := Signature.allowsAll_iff.mpr ⟨l, hcompletes, hchecked⟩
    refine ⟨⟨ins, outs, ds⟩, ?_, hsignature, l, hcompletes, congrArg constants hheader⟩
    rw [hsignature] at hcheck hallowed
    obtain ⟨hname, hfields, hdistinct⟩ := (Description.check_signature_iff (x := ⟨ins, outs, ds⟩)
      hins houts fun item hitem => (htyped item hitem).1).mp hcheck
    exact ⟨hname, hins, houts, htyped, hfields, hdistinct, hregistered, hunrepeated, hplain,
      hds, hallowed⟩
  · rintro ⟨x, hx, hsignature, l, hcompletes, hconstants⟩
    obtain ⟨variants, hvariants, hvs⟩ :=
      Variant.inOrder_ofShortNames_iff.mpr ⟨⟨hx.registered, hx.unrepeated, hx.plain⟩, rfl⟩
    obtain ⟨declared, l', hdeclared, hl', hcompletes'⟩ :=
      Signature.exists_completes hcompletes.each hcompletes.agree
    obtain rfl := hcompletes.unique hcompletes'
    have hcheck := (Description.check_signature_iff hx.inputs hx.outputs fun item hitem =>
      (hx.typed item hitem).1).mpr
      ⟨hx.name, hx.fieldNames, hx.distinct⟩
    have hallowed := hx.allowed
    rw [← hsignature] at hcheck hallowed
    obtain ⟨l', hl'', hchecked⟩ := Signature.allowsAll_iff.mp hallowed
    obtain rfl := hcompletes.unique hl''
    refine ⟨x.inputs.filterMap Declaration.declared?, x.outputs.filterMap Declaration.declared?,
      variants, x.derivatives, declared, l, ?_, ?_, hvariants, ?_, ?_, hdeclared, hl', ?_⟩
    · exact Variable.ofSource_eq_ok_iff.mpr
        ⟨x.inputs, hx.inputs, fun item hitem => hx.typed item (List.mem_append_left _ hitem), rfl⟩
    · exact Variable.ofSource_eq_ok_iff.mpr
        ⟨x.outputs, hx.outputs,
          fun item hitem => hx.typed item (List.mem_append_right _ hitem), rfl⟩
    · exact Signature.ofParts_eq_ok_iff.mpr ⟨_, hvs, hsignature, hcheck⟩
    · exact Declaration.ofSource_eq_ok_iff.mpr hx.derivatives
    · refine ofSignature_eq_ok_iff.mpr ⟨hchecked, ?_⟩
      rw [← hconstants]

theorem hasDeclared_of_completes {ds : List Declaration} {l : Ledger} (hl : h.Completes ds l)
    (hconstants : h.constants = l.constants)
    (hchecked : ∀ c x, l.constants.get? c = some x → 0 < c.order ∧
      h.hasChannel h.widest c ∧ x.isFinite) :
    h.HasDeclared ds := by
  refine ⟨fun c hc horder => ?_, fun c _ _ d hd habout y hvalue => ?_, fun c hc horder hnone => ?_,
    fun c hc => ?_⟩
  · have hchannel := Signature.mem_channels.mp hc
    rw [mem_emitted, and_iff_right hchannel, hconstants,
      hl.constants_eq_none_iff ⟨horder, hchannel⟩]
  · rw [hconstants, hl.constants_iff]
    exact .inl ⟨d, hd, habout, y, hvalue, rfl⟩
  · rw [hconstants, hl.constants_iff]
    exact .inr ⟨⟨horder, Signature.mem_channels.mp hc⟩, hnone, rfl⟩
  · obtain ⟨y, hy⟩ := ChannelMap.contains_iff.mp hc
    rw [hconstants] at hy
    obtain ⟨horder, hchannel, -⟩ := hchecked c y hy
    exact ⟨Signature.mem_channels.mpr hchannel, horder⟩

/-- A description whose second derivative is written with its inputs swapped. -/
def radius : Description where
  name := "Radius"
  inputs := "double x, double y"
  outputs := "double r,"
  derivatives := "D_r_D_x, double D_r_D_y = 2.5, D2_r_D_y_D_x = -1"
  variants := ["d2", "d0"]

end Header

end DerivativeHeaders
