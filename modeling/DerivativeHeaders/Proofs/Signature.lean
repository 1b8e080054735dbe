import DerivativeHeaders.Proofs.Channel.Name
import DerivativeHeaders.Proofs.Variant

/-! # Checked signatures

What holds of every signature that passes its checks, and why the checks accept its parts again.
-/
namespace DerivativeHeaders

open Outcome

theorem Variable.checkAll_eq_ok_iff {seen : List String} {ps : List Variable} :
    checkAll seen ps = .ok () ↔
      (∀ p ∈ ps, isIdentifier p.type ∧ isFieldName p.name) ∧ (ps.map Variable.name).Nodup ∧
        ∀ p ∈ ps, p.name ∉ seen := by
  induction ps generalizing seen with
  | nil => simp [checkAll]
  | cons p ps ih =>
    rw [checkAll]
    by_cases htype : isIdentifier p.type
    · by_cases hname : isFieldName p.name
      · by_cases hseen : p.name ∈ seen
        · simp [htype, hname, hseen]
        · simp only [htype, hname, not_true_eq_false, ↓reduceIte, hseen, ih, List.mem_cons, not_or,
            List.map_cons,
            List.nodup_cons, List.mem_map, not_exists, not_and, forall_eq_or_imp, and_self,
            true_and, not_false_eq_true]
          grind
      · simp [htype, hname]
    · simp [htype]

namespace Signature

/-- What every signature satisfies that passes its checks. -/
structure IsChecked (s : Signature) : Prop where
  name : isIdentifier s.name
  types : ∀ x ∈ s.inputs ++ s.outputs, isIdentifier x.type
  fieldNames : ∀ x ∈ s.inputs ++ s.outputs, isFieldName x.name
  distinct : ((s.inputs ++ s.outputs).map Variable.name).Nodup
  ordered : Variant.IsOrdered s.variants
  widest : s.widest ∈ s.variants

variable {s : Signature} {c : Channel} {v : Variant} {n : String}

theorem check_eq_ok_iff : s.check = .ok () ↔ isIdentifier s.name ∧
    (∀ x ∈ s.inputs ++ s.outputs, isIdentifier x.type ∧ isFieldName x.name) ∧
      ((s.inputs ++ s.outputs).map Variable.name).Nodup := by
  rw [check]
  by_cases hname : isIdentifier s.name
  · simp [hname, Variable.checkAll_eq_ok_iff]
  · simp [hname]

theorem ofParts_eq_ok_iff {name : String} {inputs outputs : List Variable}
    {variants : List Variant} :
    ofParts name inputs outputs variants = .ok s ↔
      ∃ vs, Variant.inOrder variants = .ok vs ∧ s = ⟨name, inputs, outputs, vs⟩ ∧
      s.check = .ok () := by
  simp only [ofParts, bind_eq_ok, pure_eq_ok]
  constructor
  · rintro ⟨vs, hvs, ⟨⟩, hcheck, rfl⟩
    exact ⟨vs, hvs, rfl, hcheck⟩
  · rintro ⟨vs, hvs, rfl, hcheck⟩
    exact ⟨vs, hvs, (), hcheck, rfl⟩

theorem isChecked_ofParts {name : String} {inputs outputs : List Variable} {variants : List Variant}
    (h : ofParts name inputs outputs variants = .ok s) : s.IsChecked := by
  obtain ⟨vs, hvs, rfl, hcheck⟩ := ofParts_eq_ok_iff.mp h
  obtain ⟨hname, hvariables, hdistinct⟩ := check_eq_ok_iff.mp hcheck
  have hordered := Variant.isOrdered_inOrder hvs
  exact ⟨hname, fun x hx => (hvariables x hx).1, fun x hx => (hvariables x hx).2, hdistinct,
    hordered, hordered.unionAll_mem⟩

namespace IsChecked

theorem check (h : s.IsChecked) : s.check = .ok () :=
  check_eq_ok_iff.mpr ⟨h.name, fun x hx => ⟨h.types x hx, h.fieldNames x hx⟩, h.distinct⟩

theorem ofParts_eq (h : s.IsChecked) : ofParts s.name s.inputs s.outputs s.variants = .ok s :=
  ofParts_eq_ok_iff.mpr ⟨s.variants, h.ordered.inOrder_eq, rfl, h.check⟩

theorem functionName_eq (h : s.IsChecked) (v : Variant) :
    s.functionName v = .ok (v.extendName s.name) :=
  if_pos h.name

theorem inputNames_nodup (h : s.IsChecked) : s.inputNames.Nodup := by
  have := h.distinct
  rw [List.map_append] at this
  exact this.of_append_left

theorem outputNames_nodup (h : s.IsChecked) : s.outputNames.Nodup := by
  have := h.distinct
  rw [List.map_append] at this
  exact this.of_append_right

theorem isFieldName_inputNames (h : s.IsChecked) : ∀ n ∈ s.inputNames, isFieldName n := by
  intro n hn
  obtain ⟨x, hx, rfl⟩ := List.mem_map.mp hn
  exact h.fieldNames x (List.mem_append_left _ hx)

theorem isFieldName_outputNames (h : s.IsChecked) : ∀ n ∈ s.outputNames, isFieldName n := by
  intro n hn
  obtain ⟨x, hx, rfl⟩ := List.mem_map.mp hn
  exact h.fieldNames x (List.mem_append_right _ hx)

theorem exists_channelName (h : s.IsChecked) (hc : s.hasChannel v c) :
    ∃ n, s.channelName c = .ok n := by
  have hfits : c.fits s.inputNames.length s.outputNames.length := by
    simp only [inputNames, outputNames, List.length_map]
    simp only [hasChannel, Bool.and_eq_true] at hc
    exact hc.1.1
  exact Channel.exists_name hfits h.isFieldName_outputNames h.isFieldName_inputNames

theorem channelOfName_channelName (h : s.IsChecked) (hc : s.hasChannel v c)
    (hn : s.channelName c = .ok n) :
    s.channelOfName n = .ok c := by
  simp only [hasChannel, Bool.and_eq_true] at hc
  have := Channel.ofName_name h.outputNames_nodup h.inputNames_nodup hn
  rwa [Channel.canonical_eq_self hc.1.2] at this

end IsChecked

/-- The output of the channel has the type. -/
def HasType (s : Signature) (c : Channel) (type : String) : Prop :=
  ∃ x, s.outputs[c.output]? = some x ∧ x.type = type

theorem channelType_eq_ok_iff {type : String} :
    s.channelType c = .ok type ↔ s.HasType c type := by
  rw [channelType, HasType]
  cases s.outputs[c.output]? <;> simp

theorem checkType_eq_ok_iff {type : String} :
    s.checkType c n type = .ok () ↔ s.channelType c = .ok type := by
  simp only [checkType, bind_eq_ok]
  constructor
  · rintro ⟨expected, h, hcheck⟩
    split at hcheck
    · rename_i heq
      rw [h, heq]
    · cases hcheck
  · intro h
    exact ⟨type, h, if_pos rfl⟩

theorem output_lt (hc : s.hasChannel v c) : c.output < s.outputs.length := by
  simp only [hasChannel, Bool.and_eq_true] at hc
  have hfits := hc.1.1
  cases c <;> simp [Channel.fits] at hfits <;> simp [Channel.output, hfits]

theorem HasType.unique {type type' : String} (h : s.HasType c type) (h' : s.HasType c type') :
    type = type' := by
  obtain ⟨x, hx, rfl⟩ := h
  obtain ⟨x', hx', rfl⟩ := h'
  cases hx.symm.trans hx'
  rfl

theorem exists_hasType (hc : s.hasChannel v c) : ∃ type, s.HasType c type :=
  ⟨_, _, List.getElem?_eq_getElem (output_lt hc), rfl⟩

theorem exists_channelType (hc : s.hasChannel v c) : ∃ type, s.channelType c = .ok type := by
  obtain ⟨type, htype⟩ := exists_hasType hc
  exact ⟨type, channelType_eq_ok_iff.mpr htype⟩

end Signature

end DerivativeHeaders
