import DerivativeHeaders.Proofs.Call.Prototype

/-! # Interfaces of wider variants

A variant has those channels of a wider one whose orders it computes. The registered variants only
add orders at the end, so the prototype of a wider one has the same parameters and then more
pointers. Whatever a variant does not emit is one of the constants.
-/
namespace DerivativeHeaders

open Outcome

namespace Channel

/-- Two ascending lists with the same members are equal. -/
theorem eq_of_mem_iff {cs ds : List Channel} (hc : cs.Pairwise (· < ·)) (hd : ds.Pairwise (· < ·))
    (h : ∀ c, c ∈ cs ↔ c ∈ ds) : cs = ds := by
  have hperm : cs.Perm ds :=
    (List.perm_ext_iff_of_nodup (nodup_of_pairwise hc) (nodup_of_pairwise hd)).mpr h
  apply hperm.eq_of_pairwise _ hc hd
  intro c d _ _ hlt hgt
  exact absurd hgt (lt_asymm hlt)

end Channel

def Toggle.order : Toggle → Nat
  | firstOrder => 1
  | secondOrder => 2

namespace Variant

variable {v w : Variant}

/-- The derivative orders of the channels that a variant has. -/
def orders (v : Variant) : List Nat := 0 :: v.active.map Toggle.order

/-- Every toggle that is on in `v` is on in `w`. -/
def IsWithin (v w : Variant) : Prop := ∀ t, v.get t → w.get t

theorem isEnabled_iff (v : Variant) (c : Channel) :
    c.isEnabled v.firstOrder v.secondOrder ↔ c.order ∈ v.orders := by
  unfold Channel.order
  obtain ⟨_ | _, _ | _⟩ := v <;> cases c <;> simp only [Channel.isEnabled] <;> decide

theorem IsWithin.orders_subset (hvw : v.IsWithin w) : v.orders ⊆ w.orders := by
  intro n hn
  rcases List.mem_cons.mp hn with rfl | hn
  · exact List.mem_cons_self
  · obtain ⟨t, ht, rfl⟩ := List.mem_map.mp hn
    obtain ⟨hall, hget⟩ := List.mem_filter.mp ht
    apply List.mem_cons_of_mem
    exact List.mem_map_of_mem (List.mem_filter.mpr ⟨hall, hvw t hget⟩)

/-- The variants of the registry: nothing, the first order, and both. -/
theorem Precedes.cases (hvw : v.Precedes w) : v = plain ∨ v = ⟨true, false⟩ ∧ w = ⟨true, true⟩ := by
  obtain ⟨i, j, hi, hj, hlt⟩ := hvw
  obtain ⟨_ | _, _ | _⟩ := v
  · exact .inl rfl
  · cases hi
  · obtain ⟨_ | _, _ | _⟩ := w
    · cases hi
      cases hj
      omega
    · cases hj
    · cases hi
      cases hj
      omega
    · exact .inr ⟨rfl, rfl⟩
  · obtain ⟨_ | _, _ | _⟩ := w <;> cases hi <;> cases hj <;> omega

theorem Precedes.channels_prefix (hvw : v.Precedes w) (inputs outputs : Nat) :
    v.channels inputs outputs <+: w.channels inputs outputs := by
  unfold channels Channel.enumerate
  rcases hvw.cases with rfl | ⟨rfl, rfl⟩
  · simp only [plain, Bool.false_eq_true, ↓reduceIte, List.append_nil, List.append_assoc]
    exact List.prefix_append _ _
  · simp only [Bool.false_eq_true, ↓reduceIte, List.append_nil]
    exact List.prefix_append _ _

end Variant

namespace Header

variable {h : Header} {v w : Variant} {c : Channel}

theorem hasChannel_iff : h.hasChannel v c ↔
    c.fits h.inputs.length h.outputs.length ∧ c.isCanonical ∧ c.order ∈ v.orders := by
  simp only [Signature.hasChannel, Bool.and_eq_true, Variant.isEnabled_iff, and_assoc]

/-- The constants of a header that are channels of the variant, ascending. -/
def constantChannels (h : Header) (v : Variant) : List Channel :=
  h.constants.keys.filter (h.hasChannel v ·)

theorem mem_constantChannels :
    c ∈ h.constantChannels v ↔ c ∈ h.channels v ∧ h.constants.contains c := by
  simp only [constantChannels, List.mem_filter, ChannelMap.mem_keys_iff,
    Signature.mem_channels, and_comm]

theorem pairwise_constantChannels (h : Header) (v : Variant) :
    (h.constantChannels v).Pairwise (· < ·) := by
  apply List.Pairwise.filter
  unfold ChannelMap.keys
  exact List.pairwise_map.mpr h.constants.ascending

theorem constantChannels_eq (h : Header) (v : Variant) :
    h.constantChannels v = (h.channels v).filter (h.constants.contains ·) := by
  apply Channel.eq_of_mem_iff (h.pairwise_constantChannels v) ((h.pairwise_channels v).filter _)
  intro c
  simp only [mem_constantChannels, List.mem_filter]

/-- A variant has those channels of a wider one that are of its orders, and emits those of them that
the wider one emits. -/
structure Narrows (h : Header) (v w : Variant) : Prop where
  channels : h.channels v = (h.channels w).filter fun c => c.order ∈ v.orders
  emitted : h.emitted v = (h.emitted w).filter fun c => c.order ∈ v.orders

theorem narrows_of_isWithin (hvw : v.IsWithin w) : h.Narrows v w := by
  have hchannels : h.channels v = (h.channels w).filter fun c => c.order ∈ v.orders := by
    apply Channel.eq_of_mem_iff (h.pairwise_channels v) ((h.pairwise_channels w).filter _)
    intro c
    have hsubset : c.order ∈ v.orders → c.order ∈ w.orders := fun hn => hvw.orders_subset hn
    simp only [List.mem_filter, Signature.mem_channels, hasChannel_iff, decide_eq_true_eq]
    tauto
  constructor
  · exact hchannels
  · unfold emitted
    rw [hchannels, List.filter_filter, List.filter_filter]
    apply List.filter_congr
    intro c _
    exact Bool.and_comm _ _

/-- The channels of a variant, and the emitted ones, are the first ones of a wider variant. -/
structure Begins (h : Header) (v w : Variant) : Prop where
  channels : h.channels v <+: h.channels w
  emitted : h.emitted v <+: h.emitted w

theorem begins_of_precedes (hvw : v.Precedes w) : h.Begins v w := by
  have hchannels := hvw.channels_prefix h.inputs.length h.outputs.length
  exact ⟨hchannels, hchannels.filter _⟩

/-- Each channel of a variant is either emitted or a constant, in the order of the channels. -/
structure Divides (h : Header) (v : Variant) : Prop where
  perm : (h.emitted v ++ h.constantChannels v).Perm (h.channels v)
  disjoint : (h.emitted v).Disjoint (h.constantChannels v)
  emitted : (h.emitted v).Sublist (h.channels v)
  constants : (h.constantChannels v).Sublist (h.channels v)
  missing : ∀ given, (∀ c, c ∈ given ↔ c ∈ h.emitted v) → h.missing v given = h.constantChannels v

theorem divides (h : Header) (v : Variant) : h.Divides v := by
  refine ⟨?_, ?_, List.filter_sublist, ?_, ?_⟩
  · rw [constantChannels_eq]
    have hperm := List.filter_append_perm (fun c => !h.constants.contains c) (h.channels v)
    simpa only [Bool.not_not, emitted] using hperm
  · intro c hemitted hconstant
    obtain ⟨x, hx⟩ := ChannelMap.contains_iff.mp (mem_constantChannels.mp hconstant).2
    rw [(mem_emitted.mp hemitted).2] at hx
    cases hx
  · rw [constantChannels_eq]
    exact List.filter_sublist
  · intro given hgiven
    rw [constantChannels_eq]
    apply List.filter_congr
    intro c hc
    by_cases hconstant : h.constants.contains c <;> simp [hgiven, emitted, hc, hconstant]

/-- No constant is a value, so each value is emitted. -/
theorem value_mem_emitted (hc : h.IsChecked) (v : Variant) {o : Nat} (ho : o < h.outputs.length) :
    .value o ∈ h.emitted v := by
  apply mem_emitted.mpr
  constructor
  · simp [hasChannel_iff, Channel.fits, Channel.isCanonical, Channel.order, Variant.orders, ho]
  · apply Option.eq_none_iff_forall_ne_some.mpr
    intro x hx
    have hpos := hc.order_pos_of_get? hx
    cases hpos

/-- The slots are the parameters of the variant, in its prototype among remarks and in its
definition alone. -/
def HasParameterList (h : Header) (v : Variant) (parameters : List Slot) : Prop :=
  h.parameterSlots v = .ok parameters ∧ ∃ slots, h.slots v = .ok slots ∧
    slots.filter Slot.isParameter = parameters

/-- The parameter for an emitted channel. -/
def IsPointer (h : Header) (c : Channel) (slot : Slot) : Prop :=
  ∃ type name, h.channelType c = .ok type ∧ h.channelName c = .ok name ∧
    slot = .parameter (type ++ "* " ++ name)

/-- The wider variant has the parameters of the narrower one, and then pointers for the channels
that are new. -/
structure AppendsPointers (h : Header) (v w : Variant) (parameters pointers : List Slot) :
    Prop where
  narrower : h.HasParameterList v parameters
  wider : h.HasParameterList w (parameters ++ pointers)
  pointers : ∃ channels, h.emitted w = h.emitted v ++ channels ∧
    List.Forall₂ h.IsPointer channels pointers

theorem HasParameters.hasParameterList (hc : h.IsChecked) {ins outs : List Slot}
    (hp : h.HasParameters v ins outs) :
    h.HasParameterList v (ins ++ outs) := by
  obtain ⟨remarks, hslots, hremarks⟩ := exists_remarks hc hp
  exact ⟨hp.slots, _, hslots, hp.filter_append hremarks⟩

theorem HasParameters.append {ins outs pointers : List Slot} {channels : List Channel}
    (hp : h.HasParameters v ins outs)
    (hemitted : h.emitted w = h.emitted v ++ channels)
    (hpointers : List.Forall₂ (fun c slot => h.channelSlot c = .ok slot) channels pointers) :
    h.HasParameters w ins (outs ++ pointers) := by
  apply hasParameters_of_forall₂ hp.inputs
  rw [hemitted]
  exact List.rel_append hp.outputs hpointers

theorem exists_appendsPointers (hc : h.IsChecked) (hvw : v.Precedes w) :
    ∃ parameters pointers, h.AppendsPointers v w parameters pointers := by
  obtain ⟨channels, hchannels⟩ := (begins_of_precedes (h := h) hvw).emitted
  obtain ⟨ins, outs, hp⟩ := exists_parameters hc v
  have hslots : ∀ c ∈ channels, ∃ slot, h.channelSlot c = .ok slot := by
    intro c hmem
    have hwide : c ∈ h.emitted w := hchannels ▸ List.mem_append_right _ hmem
    exact exists_channelSlot hc (mem_emitted.mp hwide).1
  obtain ⟨pointers, hpointers⟩ := exists_forall₂ hslots
  have hwide := (hp.append hchannels.symm hpointers).hasParameterList hc
  rw [← List.append_assoc] at hwide
  refine ⟨ins ++ outs, pointers, hp.hasParameterList hc, hwide, channels, hchannels.symm, ?_⟩
  exact hpointers.imp fun c slot hslot => channelSlot_eq_ok_iff.mp hslot

/-- The interfaces of the variants of a header widen one another, and a constructed header writes
all its values. -/
theorem interfaces_widen (h : Header) :
    (∀ v w : Variant, v.IsWithin w → h.Narrows v w) ∧
      (∀ v w : Variant, v.Precedes w → h.Begins v w) ∧
      (∀ v, h.Divides v) ∧
      (h.IsConstructed →
        (∀ v o, o < h.outputs.length → .value o ∈ h.emitted v) ∧
        ∀ v w : Variant, v.Precedes w →
          ∃ parameters pointers, h.AppendsPointers v w parameters pointers) := by
  refine ⟨fun v w => narrows_of_isWithin, fun v w => begins_of_precedes, h.divides,
    fun hc => ⟨?_, ?_⟩⟩
  · intro v o ho
    exact value_mem_emitted hc.isChecked v ho
  · intro v w hvw
    exact exists_appendsPointers hc.isChecked hvw

/-- Of the channels that are new in the wider variant one is a constant and one is emitted. -/
theorem interfaces_widen_sharing : ∃ h parameters pointers, sharing = .ok h ∧ h.IsConstructed ∧
    (Variant.plain.IsWithin ⟨true, false⟩ ∧ h.Narrows .plain ⟨true, false⟩) ∧
    (Variant.plain.Precedes ⟨true, false⟩ ∧ h.Begins .plain ⟨true, false⟩ ∧
      h.AppendsPointers .plain ⟨true, false⟩ parameters pointers) ∧
    (h.emitted ⟨true, false⟩ = [.value 0, .value 1, .first 1 0] ∧
      h.constantChannels ⟨true, false⟩ = [.first 0 0] ∧ h.Divides ⟨true, false⟩) ∧
      (1 < h.outputs.length ∧ .value 1 ∈ h.emitted ⟨true, false⟩) := by
  obtain ⟨h, hh⟩ := exists_sharing
  have hlists : (sharing.toOption.map fun h =>
      (h.emitted ⟨true, false⟩, h.constantChannels ⟨true, false⟩, h.outputs.length)) =
      some ([.value 0, .value 1, .first 1 0], [.first 0 0], 2) := by decide +kernel
  rw [hh] at hlists
  obtain ⟨hemitted, hlists⟩ := Prod.mk.inj (Option.some.inj hlists)
  obtain ⟨hconstants, houtputs⟩ := Prod.mk.inj hlists
  have hwithin : Variant.plain.IsWithin ⟨true, false⟩ := fun t ht => by cases t <;> cases ht
  have hprecedes : Variant.plain.Precedes ⟨true, false⟩ := ⟨0, 1, rfl, rfl, Nat.one_pos⟩
  have hlt : 1 < h.outputs.length := by omega
  have hc := isConstructed_sharing hh
  obtain ⟨hnarrows, hbegins, hdivides, hconstructed⟩ := interfaces_widen h
  obtain ⟨hvalues, happends⟩ := hconstructed hc
  obtain ⟨parameters, pointers, hpointers⟩ := happends .plain ⟨true, false⟩ hprecedes
  exact ⟨h, parameters, pointers, hh, hc, ⟨hwithin, hnarrows _ _ hwithin⟩,
    ⟨hprecedes, hbegins _ _ hprecedes, hpointers⟩, ⟨hemitted, hconstants, hdivides _⟩, hlt,
    hvalues _ 1 hlt⟩

end Header

end DerivativeHeaders
