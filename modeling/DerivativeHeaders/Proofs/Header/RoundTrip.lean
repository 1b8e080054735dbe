import DerivativeHeaders.Proofs.Header.Faithful
import DerivativeHeaders.Proofs.Header.Print

/-! # Header texts read back

The text of a header is read as the header: the first block gives its signature again, and one
ledger takes in what the blocks say, since each of them says what the header holds.
-/
namespace DerivativeHeaders

open Outcome Ledger

namespace Header

variable {h : Header} {v : Variant} {fields : List Field}

/-- What the prototype of a variant says about the channels. -/
def entries (h : Header) (v : Variant) : List Statement :=
  (h.emitted v).map (·, .runtime) ++ (h.remarks v).map fun x => (x.1, .constant x.2)

theorem map_fst_remarks_sublist (h : Header) (v : Variant) :
    ((h.remarks v).map Prod.fst).Sublist (h.channels v) := by
  rw [remarks]
  induction h.channels v with
  | nil => exact .slnil
  | cons c channels ih =>
    cases hget : h.constants.get? c with
    | none => simpa [hget] using ih.cons c
    | some x =>
      cases hzero : x.isZero with
      | true => simpa [hget, hzero] using ih.cons c
      | false => simpa [hget, hzero] using ih

theorem pairwise_remarks (h : Header) (v : Variant) :
    ((h.remarks v).map Prod.fst).Pairwise (· < ·) :=
  (h.pairwise_channels v).sublist (h.map_fst_remarks_sublist v)

theorem nodup_entries (h : Header) (v : Variant) : ((h.entries v).map Prod.fst).Nodup := by
  have hout : ((h.emitted v).map fun c => (c, Role.runtime)).map Prod.fst = h.emitted v := by
    rw [List.map_map]
    exact List.map_id _
  have hremark : ((h.remarks v).map fun x => (x.1, Role.constant x.2)).map Prod.fst =
      (h.remarks v).map Prod.fst := by
    rw [List.map_map]
    rfl
  rw [entries, List.map_append, hout, hremark, List.nodup_append]
  refine ⟨h.nodup_emitted v, Channel.nodup_of_pairwise (h.pairwise_remarks v), ?_⟩
  rintro c hc d hd rfl
  obtain ⟨-, hnone⟩ := mem_emitted.mp hc
  obtain ⟨x, hx, rfl⟩ := List.mem_map.mp hd
  obtain ⟨-, hsome, -⟩ := mem_remarks.mp hx
  rw [hnone] at hsome
  cases hsome

/-- A field says something, whatever its line. -/
def SaysAnywhere (h : Header) (v : Variant) (field : Field) (part : List Statement) : Prop :=
  ∀ line, h.FieldSays v (line, field) part

theorem forall₂_inputs (v : Variant) (xs : List Variable) :
    List.Forall₂ (h.SaysAnywhere v) (xs.map Field.input) (xs.map fun _ => []) := by
  rw [List.forall₂_map_left_iff, List.forall₂_map_right_iff]
  exact List.forall₂_same.mpr fun x _ line => .input

theorem forall₂_outs (hc : h.IsChecked) {outs : List Field}
    (houts : List.Forall₂ h.IsOutput (h.emitted v) outs) :
    List.Forall₂ (h.SaysAnywhere v) outs ((h.emitted v).map fun c => [(c, .runtime)]) := by
  have hall : ∀ c ∈ h.emitted v, h.hasChannel v c := fun c hmem => (mem_emitted.mp hmem).1
  rw [List.forall₂_map_right_iff]
  generalize h.emitted v = channels at houts hall
  induction houts with
  | nil => exact .nil
  | @cons c field channels outs hfield _ ih =>
    have hchannel := hall c List.mem_cons_self
    obtain ⟨type, name, htype, hname, rfl⟩ := hfield
    refine .cons (fun line => ?_) (ih fun d hd => hall d (List.mem_cons_of_mem _ hd))
    exact .output (hc.channelOfName_channelName hchannel hname) hchannel htype

theorem forall₂_remarks (hc : h.IsChecked) {remarks : List Field}
    (hremarks : List.Forall₂ h.IsRemark (h.remarks v) remarks) :
    List.Forall₂ (h.SaysAnywhere v) remarks
      ((h.remarks v).map fun x => [(x.1, .constant x.2)]) := by
  have hall : ∀ x ∈ h.remarks v, h.hasChannel v x.1 := fun x hmem => (mem_remarks.mp hmem).1
  rw [List.forall₂_map_right_iff]
  generalize h.remarks v = constants at hremarks hall
  induction hremarks with
  | nil => exact .nil
  | @cons x field constants remarks hfield _ ih =>
    have hchannel := hall x List.mem_cons_self
    obtain ⟨name, hname, rfl⟩ := hfield
    refine .cons (fun line => ?_) (ih fun y hy => hall y (List.mem_cons_of_mem _ hy))
    exact .constant (hc.channelOfName_channelName hchannel hname) hchannel

theorem forall₂_fields (hc : h.IsChecked) (hfields : h.HasFields v fields) :
    ∃ parts, List.Forall₂ (h.SaysAnywhere v) fields parts ∧ parts.flatten = h.entries v := by
  obtain ⟨outs, remarks, rfl, houts, hremarks⟩ := hfields
  refine ⟨_, List.rel_append (List.rel_append (forall₂_inputs v h.inputs) (forall₂_outs hc houts))
    (forall₂_remarks hc hremarks), ?_⟩
  have hempty : (h.inputs.map fun _ => ([] : List Statement)).flatten = [] := by
    rw [List.flatten_eq_nil_iff]
    intro part hpart
    obtain ⟨-, -, rfl⟩ := List.mem_map.mp hpart
    rfl
  have hsingle {α : Type} (f : α → Statement) (xs : List α) :
      (xs.map fun x => [f x]).flatten = xs.map f := by
    induction xs with
    | nil => rfl
    | cons x xs ih =>
      rw [List.map_cons, List.flatten_cons, ih]
      rfl
  rw [List.flatten_append, List.flatten_append, hempty, hsingle, hsingle, List.nil_append, entries]

theorem hasFields_saying (hc : h.IsChecked) {p : Prototype}
    (hfunction : p.function = v.extendName h.name)
    (hinputs : p.inputs = h.inputs) (hfields : h.HasFields v (p.fields.map Prod.snd)) :
    h.PrototypeSays v p (h.entries v) := by
  refine ⟨?_, hinputs, ?_, h.nodup_entries v⟩
  · rw [hc.functionName_eq, hfunction]
  · obtain ⟨parts, hparts, hflatten⟩ := forall₂_fields hc hfields
    rw [List.forall₂_map_left_iff] at hparts
    exact ⟨parts, hparts.imp fun x part hx => hx x.1, hflatten⟩

theorem rounded_role (hc : h.IsChecked) (c : Channel) : (h.role c).rounded = h.role c := by
  cases hget : h.constants.get? c with
  | none => rw [role_eq_runtime_iff.mpr hget, Role.rounded]
  | some x => rw [role_eq_constant_iff.mpr hget, Role.rounded, (hc.values c x hget).2.2]

/-- Whatever a block says about a channel, the header holds it. -/
theorem rounded_entries (hc : h.IsChecked) (v : Variant) :
    ∀ m ∈ h.entries v ++ h.zeros v (h.entries v), m.2.rounded = h.role m.1 := by
  have hkept {c : Channel} {x : Binary64} (hx : h.constants.get? c = some x) :
      (Role.constant x).rounded = h.role c := by
    rw [← role_eq_constant_iff.mpr hx, rounded_role hc]
  intro m hm
  rcases List.mem_append.mp hm with hm | hm
  · rcases List.mem_append.mp hm with hm | hm
    · obtain ⟨c, hmem, rfl⟩ := List.mem_map.mp hm
      exact (role_eq_runtime_iff.mpr (mem_emitted.mp hmem).2).symm
    · obtain ⟨x, hmem, rfl⟩ := List.mem_map.mp hm
      exact hkept (mem_remarks.mp hmem).2.1
  · obtain ⟨c, hmem, rfl⟩ := List.mem_map.mp hm
    obtain ⟨hchannel, hnot⟩ := List.mem_filter.mp hmem
    rw [Signature.mem_channels] at hchannel
    simp only [entries, List.map_append, List.map_map, decide_eq_true_eq, List.mem_append,
      not_or] at hnot
    obtain ⟨hout, hremark⟩ := hnot
    cases hget : h.constants.get? c with
    | none => exact absurd (List.mem_map.mpr ⟨c, mem_emitted.mpr ⟨hchannel, hget⟩, rfl⟩) hout
    | some x =>
      cases hzero : x.isZero with
      | false =>
        exact absurd
          (List.mem_map.mpr ⟨(c, x), mem_remarks.mpr ⟨hchannel, hget, hzero⟩, rfl⟩) hremark
      | true =>
        have hx := Binary64.eq_zero_of_isZero (hc.values c x hget).2.2 hzero
        rw [hx] at hget
        exact hkept hget

/-- A block says something about every channel of its variant, and about no other. -/
theorem mem_keys_iff {c : Channel} :
    c ∈ (h.entries v ++ h.zeros v (h.entries v)).map Prod.fst ↔ c ∈ h.channels v := by
  have hzeros : (h.zeros v (h.entries v)).map Prod.fst =
      (h.channels v).filter fun c => c ∉ (h.entries v).map Prod.fst := by
    rw [Signature.zeros, List.map_map]
    exact List.map_id _
  have hentries (hc : c ∈ (h.entries v).map Prod.fst) : c ∈ h.channels v := by
    obtain ⟨m, hm, rfl⟩ := List.mem_map.mp hc
    rw [Signature.mem_channels]
    rcases List.mem_append.mp hm with hm | hm
    · obtain ⟨d, hmem, rfl⟩ := List.mem_map.mp hm
      exact (mem_emitted.mp hmem).1
    · obtain ⟨x, hmem, rfl⟩ := List.mem_map.mp hm
      exact (mem_remarks.mp hmem).1
  rw [List.map_append, hzeros, List.mem_append, List.mem_filter]
  constructor
  · rintro (hc | ⟨hc, -⟩)
    · exact hentries hc
    · exact hc
  · intro hc
    by_cases hmem : c ∈ (h.entries v).map Prod.fst
    · exact .inl hmem
    · exact .inr ⟨hc, decide_eq_true hmem⟩

theorem input?_of_isOutput {channels : List Channel} {outs : List Field}
    (h' : List.Forall₂ h.IsOutput channels outs) :
    outs.filterMap Field.input? = [] := by
  rw [List.filterMap_eq_nil_iff]
  intro field hfield
  obtain ⟨c, -, type, name, -, -, rfl⟩ := forall₂_exists_left h' hfield
  rfl

theorem input?_of_isRemark {constants : List (Channel × Binary64)} {remarks : List Field}
    (h' : List.Forall₂ h.IsRemark constants remarks) : remarks.filterMap Field.input? = [] := by
  rw [List.filterMap_eq_nil_iff]
  intro field hfield
  obtain ⟨x, -, name, -, rfl⟩ := forall₂_exists_left h' hfield
  rfl

theorem inputs_of_hasFields (hfields : h.HasFields v fields) :
    fields.filterMap Field.input? = h.inputs := by
  obtain ⟨outs, remarks, rfl, houts, hremarks⟩ := hfields
  rw [List.filterMap_append, List.filterMap_append, input?_of_isOutput houts,
    input?_of_isRemark hremarks, List.append_nil, List.append_nil, List.filterMap_map]
  exact List.filterMap_some

theorem remarks_plain (hc : h.IsChecked) : h.remarks .plain = [] := by
  rw [List.eq_nil_iff_forall_not_mem]
  intro x hx
  obtain ⟨hchannel, hget, -⟩ := mem_remarks.mp hx
  have horder := hc.order_pos_of_get? hget
  obtain ⟨c, y⟩ := x
  cases c with
  | value o => cases horder
  | first o i => simp [Signature.hasChannel, Channel.isEnabled, Variant.plain] at hchannel
  | second o a b => simp [Signature.hasChannel, Channel.isEnabled, Variant.plain] at hchannel

theorem emitted_plain (hc : h.IsChecked) :
    h.emitted .plain = (List.range h.outputs.length).map .value := by
  have hchannels : h.channels .plain = (List.range h.outputs.length).map .value := by
    simp [Signature.channels, Variant.channels, Channel.enumerate, Channel.values, Variant.plain]
  rw [emitted, hchannels, List.filter_eq_self]
  intro c hmem
  obtain ⟨o, -, rfl⟩ := List.mem_map.mp hmem
  rw [Bool.not_eq_true', ChannelMap.contains_eq_false_iff]
  cases hget : h.constants.get? (.value o) with
  | none => rfl
  | some x => exact absurd (hc.order_pos_of_get? hget) (Nat.lt_irrefl 0)

theorem eq_output_of_isOutput {o : Nat} (ho : o < h.outputs.length) {field : Field}
    (hfield : h.IsOutput (.value o) field) :
    field = .output h.outputs[o].type h.outputs[o].name := by
  obtain ⟨type, name, htype, hname, rfl⟩ := hfield
  obtain ⟨x, hx, rfl⟩ := Signature.channelType_eq_ok_iff.mp htype
  obtain ⟨hname, -⟩ := Channel.name_value_eq_ok_iff.mp hname
  have hx : h.outputs[o]? = some x := hx
  rw [Signature.outputNames, List.getElem?_map, hx] at hname
  rw [List.getElem?_eq_getElem ho] at hx
  cases hx
  cases hname
  rfl

theorem outputs_of_hasFields (hc : h.IsChecked) (hfields : h.HasFields .plain fields) :
    fields.filterMap Field.output? = h.outputs ∧
      ∀ field ∈ fields, ∀ name x, field ≠ .constant name x := by
  obtain ⟨outs, remarks, rfl, houts, hremarks⟩ := hfields
  rw [remarks_plain hc, List.forall₂_nil_left_iff] at hremarks
  rw [emitted_plain hc, List.forall₂_map_left_iff] at houts
  subst hremarks
  have hvalues : outs = h.outputs.map fun x => .output x.type x.name := by
    have hlength := houts.length_eq
    rw [List.length_range] at hlength
    refine List.ext_getElem (by rw [List.length_map, hlength]) fun i hi _ => ?_
    have hi' : i < h.outputs.length := hlength ▸ hi
    have hfield := houts.get (by simpa using hi') hi
    simp only [List.get_eq_getElem, List.getElem_range] at hfield
    rw [List.getElem_map]
    exact eq_output_of_isOutput hi' hfield
  rw [hvalues, List.append_nil]
  refine ⟨?_, ?_⟩
  · have hinputs : (h.inputs.map Field.input).filterMap Field.output? = [] := by
      rw [List.filterMap_map, List.filterMap_eq_nil_iff]
      exact fun x _ => rfl
    rw [List.filterMap_append, hinputs, List.filterMap_map, List.nil_append]
    exact List.filterMap_some
  · intro field hfield name x
    rcases List.mem_append.mp hfield with hfield | hfield
    · obtain ⟨y, -, rfl⟩ := List.mem_map.mp hfield
      nofun
    · obtain ⟨y, -, rfl⟩ := List.mem_map.mp hfield
      nofun

/-- The prototype of the plain variant gives the signature again. -/
theorem ofParts_of_hasFields (hc : h.IsChecked) {p : Prototype}
    (hfunction : p.function = Variant.plain.extendName h.name)
    (hfields : h.HasFields .plain (p.fields.map Prod.snd)) : p.checkDefault = .ok () ∧
      Signature.ofParts p.function p.inputs p.outputs h.variants = .ok h.toSignature := by
  obtain ⟨houtputs, hconstants⟩ := outputs_of_hasFields hc hfields
  refine ⟨Prototype.checkDefault_eq_ok_iff.mpr hconstants, ?_⟩
  have hname : p.function = h.name := by rw [hfunction, Variant.extendName, if_pos rfl]
  rw [p.inputs_eq, p.outputs_eq, inputs_of_hasFields hfields, houtputs, hname]
  exact hc.toIsChecked.ofParts_eq

theorem map_variant {vs : List Variant} {blocks : List Block}
    (hblocks : List.Forall₂ h.IsBlockOf vs blocks) :
    blocks.map Block.variant = vs := by
  induction hblocks with
  | nil => rfl
  | cons hblock _ ih => rw [List.map_cons, ih, hblock.1]

/-- What the blocks of variants say: nothing but what the header holds, of all channels of the
variants. -/
theorem exists_parts (hc : h.IsChecked) {vs : List Variant} {blocks : List Block}
    (hblocks : List.Forall₂ h.IsBlockOf vs blocks) : ∃ parts,
      List.Forall₂ h.BlockSays blocks parts ∧ (∀ m ∈ parts.flatten, m.2.rounded = h.role m.1) ∧
      ∀ c, c ∈ parts.flatten.map Prod.fst ↔ ∃ v ∈ vs, c ∈ h.channels v := by
  induction hblocks with
  | nil => exact ⟨[], .nil, by simp, by simp⟩
  | @cons v b vs blocks hblock _ ih =>
    obtain ⟨parts, hparts, hrounded, hkeys⟩ := ih
    obtain ⟨rfl, p, hp, hfunction, hfields⟩ := hblock
    have hinputs : p.inputs = h.inputs := p.inputs_eq.trans (inputs_of_hasFields hfields)
    have hsaid := hasFields_saying hc hfunction hinputs hfields
    refine ⟨_ :: parts, .cons ⟨p, _, hp, hsaid, rfl⟩ hparts, ?_, fun c => ?_⟩
    · intro m hm
      rw [List.flatten_cons, List.mem_append] at hm
      rcases hm with hm | hm
      · exact rounded_entries hc b.variant m hm
      · exact hrounded m hm
    · rw [List.flatten_cons, List.map_append, List.mem_append, mem_keys_iff, hkeys,
        List.exists_mem_cons_iff]

/-- A ledger that holds the channels of all variants as the header does has its constants. -/
theorem constants_of_follows (hc : h.IsChecked) {l : Ledger} (hl : l.Follows h.role)
    (hcontains : ∀ c, h.hasChannel h.widest c → 0 < c.order → l.contains c) :
    l.constants = h.constants := by
  ext c : 1
  rw [get?_constants]
  cases hrole : l.roles.get? c with
  | some role =>
    rw [hl c role hrole, Header.role]
    cases h.constants.get? c <;> rfl
  | none =>
    cases hget : h.constants.get? c with
    | none => rfl
    | some x =>
      obtain ⟨role, hsome⟩ := Ledger.contains_iff.mp
        (hcontains c (hc.hasChannel_of_get? hget) (hc.order_pos_of_get? hget))
      rw [hrole] at hsome
      cases hsome

/-- Blocks that are read as the fields of their variants give the header. -/
theorem ofBlocks_eq_ok (hc : h.IsChecked) {blocks : List Block}
    (hblocks : List.Forall₂ h.IsBlockOf h.variants blocks) :
    ofBlocks blocks = .ok h := by
  have hvariants := map_variant hblocks
  obtain ⟨parts, hparts, hrounded, hkeys⟩ := exists_parts hc hblocks
  obtain ⟨l, hl, hfollows, hcontains⟩ := recordAll_follows (follows_empty h.role) hrounded
  have hconstants : l.constants = h.constants := by
    refine constants_of_follows hc hfollows fun c hchannel _ =>
      (hcontains c).mpr (.inr ((hkeys c).mpr ?_))
    exact ⟨h.widest, hc.widest, Signature.mem_channels.mpr hchannel⟩
  obtain ⟨vs, hplain⟩ := List.head?_eq_some_iff.mp hc.ordered.plainFirst
  have hread := hblocks
  rw [hplain] at hread
  obtain ⟨first, rest, ⟨hfirst, p, hp, hfunction, hfields⟩, -, rfl⟩ :=
    List.forall₂_cons_left_iff.mp hread
  obtain ⟨hdefault, hsignature⟩ := ofParts_of_hasFields hc hfunction hfields
  refine ofBlocks_eq_ok_iff.mpr ⟨first, rest, p, l, rfl, hfirst, hp, hdefault, ?_, ?_, ?_⟩
  · rw [hvariants]
    exact hsignature
  · exact Signature.foldlM_readBlock_eq_ok_iff.mpr ⟨parts, hparts, hl⟩
  · rw [hconstants]
    exact hc.ofSignature_eq

theorem IsChecked.exists_print (hc : h.IsChecked) (hname : isReserved h.name = false)
    (hw : h.AvoidsKeywords) :
    ∃ text, h.print = .ok text ∧ ofText text = .ok h := by
  obtain ⟨text, blocks, hprint, hlocate, hwritten⟩ := exists_written hc hw
  have hblocks := isBlockOf_of_written ⟨hc.name, hname⟩ hwritten
  exact ⟨text, hprint, ofText_eq_ok_iff.mpr ⟨blocks, hlocate, ofBlocks_eq_ok hc hblocks⟩⟩

/-- A constructed header without keywords is read from its text again, and prints the same text. A
header that was read from a text has no keywords. -/
theorem ofText_print (hc : h.IsConstructed)
    (hwords : h.FromText ∨ isReserved h.name = false ∧ h.AvoidsKeywords) :
    (isReserved h.name = false ∧ h.AvoidsKeywords) ∧
      ∃ text, h.print = .ok text ∧ ofText text = .ok h ∧ (ofText text >>= print) = .ok text := by
  have hwords : isReserved h.name = false ∧ h.AvoidsKeywords := by
    rcases hwords with ⟨text, htext⟩ | hwords
    · exact avoidsKeywords_of_ofText htext
    · exact hwords
  obtain ⟨text, hprint, hread⟩ := hc.isChecked.exists_print hwords.1 hwords.2
  refine ⟨hwords, text, hprint, hread, ?_⟩
  rw [hread]
  exact hprint

theorem ofText_print_linear :
    ∃ h : Header, ofParts "f" [⟨"double", "x"⟩] [⟨"double", "y"⟩] [⟨true, false⟩, .plain]
      (ChannelMap.empty.insert (.first 0 0) (.nearest true 5 2)) = .ok h ∧
    ∃ text, h.print = .ok text ∧ ofText text = .ok h ∧ (ofText text >>= print) = .ok text := by
  obtain ⟨h, hh⟩ := exists_linear
  have hname : isReserved h.name = false := by
    rw [name_of_ofParts hh]
    rfl
  have hw := avoidsKeywords_of_ofParts hh linear_avoidsKeywords
  exact ⟨h, hh, (ofText_print (.inl ⟨_, _, _, _, _, hh⟩) (.inr ⟨hname, hw⟩)).2⟩

end Header

end DerivativeHeaders
