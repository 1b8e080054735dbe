import DerivativeHeaders.Proofs.Header.Declared
import DerivativeHeaders.Proofs.Header.Read

/-! # The invariant of headers

A header is put together from its parts, built from a description, or read from a text. All three
ways establish the same invariant, and the parts of a header give it again.
-/
namespace DerivativeHeaders

open Outcome Ledger

theorem Signature.checkConstant_eq_ok_iff {s : Signature} {c : Channel} {x : Binary64} :
    s.checkConstant c x = .ok () ↔ 0 < c.order ∧ s.hasChannel s.widest c ∧ x.isFinite := by
  rw [checkConstant]
  by_cases horder : c.order = 0
  · simp [horder]
  · by_cases hchannel : s.hasChannel s.widest c
    · by_cases hfinite : x.isFinite
      · simp [horder, hchannel, hfinite]
        omega
      · simp [horder, hchannel, hfinite]
    · simp [horder, hchannel]

namespace Header

variable {h : Header} {s : Signature} {m : ChannelMap Binary64}

theorem ofSignature_eq_ok_iff : ofSignature s m = .ok h ↔
    (∀ c x, m.get? c = some x → 0 < c.order ∧ s.hasChannel s.widest c ∧ x.isFinite) ∧
      h = ⟨s, m⟩ := by
  have hforM (u : PUnit) : m.entries.forM (fun x => s.checkConstant x.1 x.2) = .ok u ↔
      ∀ c x, m.get? c = some x → 0 < c.order ∧ s.hasChannel s.widest c ∧ x.isFinite := by
    cases u
    simp only [forM_eq_ok_iff, Signature.checkConstant_eq_ok_iff,
      ChannelMap.get?_eq_some_iff, Prod.forall]
  simp only [ofSignature, bind_eq_ok, pure_eq_ok, hforM, @eq_comm _ h]
  constructor
  · rintro ⟨_, hm, heq⟩
    exact ⟨hm, heq⟩
  · rintro ⟨hm, heq⟩
    exact ⟨(), hm, heq⟩

/-- The invariant of headers. -/
structure IsChecked (h : Header) : Prop extends h.toSignature.IsChecked where
  /-- A constant channel is a derivative that the widest variant computes. -/
  keys : ∀ c x, h.constants.get? c = some x → c.isCanonical ∧ (c.order = 1 ∨ c.order = 2) ∧
    c.fits h.inputs.length h.outputs.length ∧ c.isEnabled h.widest.firstOrder h.widest.secondOrder
  /-- A constant has a sign only if it is not zero, and it stays the same in print. -/
  values : ∀ c x, h.constants.get? c = some x → x.isFinite ∧ x ≠ .finite true .zero ∧
    x.asPrinted = x

theorem order_eq_or {c : Channel} (hc : 0 < c.order) : c.order = 1 ∨ c.order = 2 := by
  cases c with
  | value o => cases hc
  | first o i => exact .inl rfl
  | second o a b => exact .inr rfl

theorem ne_negativeZero {x : Binary64} (hx : x.asPrinted = x) : x ≠ .finite true .zero := by
  rintro rfl
  have := Binary64.eq_zero_of_isZero hx rfl
  cases this

/-- A checked signature and constants as they are printed make a checked header. -/
theorem isChecked_ofSignature (hs : s.IsChecked) (hm : ∀ c x, m.get? c = some x → x.asPrinted = x)
    (h' : ofSignature s m = .ok h) : h.IsChecked := by
  obtain ⟨hconstants, rfl⟩ := ofSignature_eq_ok_iff.mp h'
  refine ⟨hs, fun c x hx => ?_, fun c x hx => ?_⟩
  · obtain ⟨horder, hchannel, -⟩ := hconstants c x hx
    simp only [Signature.hasChannel, Bool.and_eq_true] at hchannel
    exact ⟨hchannel.1.2, order_eq_or horder, hchannel.1.1, hchannel.2⟩
  · exact ⟨(hconstants c x hx).2.2, ne_negativeZero (hm c x hx), hm c x hx⟩

theorem ofParts_eq_ok_iff {name : String} {inputs outputs : List Variable}
    {variants : List Variant} :
    ofParts name inputs outputs variants m = .ok h ↔
      Signature.ofParts name inputs outputs variants = .ok h.toSignature ∧
        ofSignature h.toSignature (m.map Binary64.asPrinted) = .ok h := by
  rw [ofParts, bind_eq_ok]
  constructor
  · rintro ⟨s, hs, h'⟩
    obtain ⟨-, rfl⟩ := ofSignature_eq_ok_iff.mp h'
    exact ⟨hs, h'⟩
  · rintro ⟨hs, h'⟩
    exact ⟨_, hs, h'⟩

theorem isChecked_ofParts {name : String} {inputs outputs : List Variable} {variants : List Variant}
    (h' : ofParts name inputs outputs variants m = .ok h) : h.IsChecked := by
  obtain ⟨hs, h'⟩ := ofParts_eq_ok_iff.mp h'
  refine isChecked_ofSignature (Signature.isChecked_ofParts hs) (fun c x hx => ?_) h'
  rw [ChannelMap.get?_map] at hx
  obtain ⟨y, -, rfl⟩ := Option.map_eq_some_iff.mp hx
  exact Binary64.asPrinted_asPrinted y

/-- A ledger that starts empty holds constants as they are printed. -/
theorem asPrinted_constants {l : Ledger} {said : List Statement}
    (hl : Ledger.empty.recordAll s said = .ok l) (c : Channel)
    (x : Binary64) (hx : l.constants.get? c = some x) : x.asPrinted = x := by
  have hrole := (recordAll_eq_ok_iff.mp hl c (.constant x)).mp (get?_constants_eq_some_iff.mp hx)
  rcases hrole with hrole | ⟨m, -, -, hm⟩
  · cases hrole
  · have := Role.rounded_rounded m.2
    rw [hm] at this
    exact Role.constant.inj this

theorem isChecked_ofDescription {d : Description} (h' : ofDescription d = .ok h) : h.IsChecked := by
  obtain ⟨inputs, outputs, variants, ds, declared, l, -, -, -, hs, -, hdeclared, hl, h'⟩ :=
    ofDescription_eq_ok_iff.mp h'
  obtain ⟨said, -, hsaid⟩ := Signature.foldlM_declare_eq_ok_iff.mp hdeclared
  have hall : Ledger.empty.recordAll h.toSignature (said ++ h.undeclared declared) = .ok l := by
    rw [recordAll_append, hsaid]
    exact hl
  exact isChecked_ofSignature (Signature.isChecked_ofParts hs) (asPrinted_constants hall) h'

theorem isChecked_ofText {text : String} (h' : ofText text = .ok h) : h.IsChecked := by
  obtain ⟨blocks, -, hblocks⟩ := ofText_eq_ok_iff.mp h'
  obtain ⟨first, rest, p, l, -, -, -, -, hs, hl, h'⟩ := ofBlocks_eq_ok_iff.mp hblocks
  obtain ⟨parts, -, hparts⟩ := Signature.foldlM_readBlock_eq_ok_iff.mp hl
  exact isChecked_ofSignature (Signature.isChecked_ofParts hs) (asPrinted_constants hparts) h'

def FromParts (h : Header) : Prop :=
  ∃ name inputs outputs variants constants, ofParts name inputs outputs variants constants = .ok h

def FromDescription (h : Header) : Prop := ∃ d, ofDescription d = .ok h

def FromText (h : Header) : Prop := ∃ text, ofText text = .ok h

/-- A header that one of the three constructors returns. -/
def IsConstructed (h : Header) : Prop := h.FromParts ∨ h.FromDescription ∨ h.FromText

theorem IsConstructed.isChecked (hc : h.IsConstructed) : h.IsChecked := by
  obtain ⟨_, _, _, _, _, h'⟩ | ⟨_, h'⟩ | ⟨_, h'⟩ := hc
  · exact isChecked_ofParts h'
  · exact isChecked_ofDescription h'
  · exact isChecked_ofText h'

namespace IsChecked

theorem hasChannel_of_get? (hc : h.IsChecked) {c : Channel} {x : Binary64}
    (hx : h.constants.get? c = some x) :
    h.hasChannel h.widest c := by
  obtain ⟨hcanonical, -, hfits, henabled⟩ := hc.keys c x hx
  simp [Signature.hasChannel, hcanonical, hfits, henabled]

theorem order_pos_of_get? (hc : h.IsChecked) {c : Channel} {x : Binary64}
    (hx : h.constants.get? c = some x) :
    0 < c.order := by
  obtain ⟨-, horder, -⟩ := hc.keys c x hx
  omega

theorem ofSignature_eq (hc : h.IsChecked) : ofSignature h.toSignature h.constants = .ok h :=
  ofSignature_eq_ok_iff.mpr
    ⟨fun c x hx => ⟨hc.order_pos_of_get? hx, hc.hasChannel_of_get? hx, (hc.values c x hx).1⟩, rfl⟩

theorem ofParts_eq (hc : h.IsChecked) :
    ofParts h.name h.inputs h.outputs h.variants h.constants = .ok h := by
  have hmap : h.constants.map Binary64.asPrinted = h.constants :=
    ChannelMap.map_eq_self fun c x hx => (hc.values c x hx).2.2
  rw [ofParts_eq_ok_iff, hmap]
  exact ⟨hc.toIsChecked.ofParts_eq, hc.ofSignature_eq⟩

end IsChecked

/-- Every constructor establishes the invariant, and the parts of its header give the header
again. -/
theorem invariant_of_isConstructed (hc : h.IsConstructed) :
    h.IsChecked ∧ ofParts h.name h.inputs h.outputs h.variants h.constants = .ok h :=
  ⟨hc.isChecked, hc.isChecked.ofParts_eq⟩

/-- The first derivative is the constant -5/2, and the variants are given out of order. -/
theorem exists_linear : ∃ h, ofParts "f" [⟨"double", "x"⟩] [⟨"double", "y"⟩] [⟨true, false⟩, .plain]
    (ChannelMap.empty.insert (.first 0 0) (.nearest true 5 2)) = .ok h :=
  exists_of_isOk (by decide +kernel)

theorem invariant_of_linear :
    ∃ h : Header, ofParts "f" [⟨"double", "x"⟩] [⟨"double", "y"⟩] [⟨true, false⟩, .plain]
      (ChannelMap.empty.insert (.first 0 0) (.nearest true 5 2)) = .ok h ∧
    h.IsChecked ∧ ofParts h.name h.inputs h.outputs h.variants h.constants = .ok h := by
  obtain ⟨h, hh⟩ := exists_linear
  exact ⟨h, hh, invariant_of_isConstructed (.inl ⟨_, _, _, _, _, hh⟩)⟩

end Header

end DerivativeHeaders
