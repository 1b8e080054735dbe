import DerivativeHeaders.Proofs.Header.Extent
import DerivativeHeaders.Proofs.Header.Invariant
import DerivativeHeaders.Proofs.Header.Roles

/-! # Header texts say what the header holds

The markers of an accepted text cut it into blocks, and one prototype stands in each of them. It
gives each channel of its variant a role. The header holds this role, whichever block gives it, so
no two blocks of an accepted text disagree.
-/
namespace DerivativeHeaders

open Outcome Ledger

def Field.channelName? : Field → Option String
  | input _ => none
  | output _ name | constant name _ => some name

namespace Signature

variable {s : Signature} {v : Variant} {p : Prototype} {said : List Statement}
  {c : Channel} {role : Role}

def Mentions (s : Signature) (p : Prototype) (c : Channel) : Prop :=
  ∃ x ∈ p.fields, ∃ name, x.2.channelName? = some name ∧ s.channelOfName name = .ok c

/-- The role that a prototype of a variant gives a channel: that of a field, or the constant
zero. -/
inductive Gives (s : Signature) (v : Variant) (p : Prototype) : Channel → Role → Prop
  | written {line : Nat} {type name : String} {c : Channel}
      (hfield : (line, .output type name) ∈ p.fields)
      (hname : s.channelOfName name = .ok c) : Gives s v p c .runtime
  | constant {line : Nat} {name : String} {x : Binary64} {c : Channel}
      (hfield : (line, .constant name x) ∈ p.fields)
      (hname : s.channelOfName name = .ok c) : Gives s v p c (.constant x.asPrinted)
  | omitted {c : Channel} (hc : c ∈ s.channels v) (hnot : ¬ s.Mentions p c) :
      Gives s v p c (.constant .zero)

theorem mem_said_iff (h : s.PrototypeSays v p said) {m : Statement} :
    m ∈ said ↔ ∃ x ∈ p.fields, s.FieldSays v x [m] := by
  obtain ⟨parts, hparts, rfl⟩ := h.fields
  constructor
  · intro hm
    obtain ⟨part, hpart, hm⟩ := List.mem_flatten.mp hm
    obtain ⟨x, hx, hsaid⟩ := forall₂_exists_left hparts hpart
    refine ⟨x, hx, ?_⟩
    cases hsaid with
    | input => cases hm
    | output hname hvariant htype =>
      rw [List.mem_singleton.mp hm]
      exact .output hname hvariant htype
    | constant hname hvariant =>
      rw [List.mem_singleton.mp hm]
      exact .constant hname hvariant
  · rintro ⟨x, hx, hsaid⟩
    obtain ⟨part, hpart, hsaid'⟩ := forall₂_exists_right hparts hx
    refine List.mem_flatten.mpr ⟨part, hpart, ?_⟩
    cases hsaid with
    | output hname hvariant htype =>
      cases hsaid' with
      | output hname' _ _ =>
        cases hname.symm.trans hname'
        exact List.mem_singleton_self _
    | constant hname hvariant =>
      cases hsaid' with
      | constant hname' _ =>
        cases hname.symm.trans hname'
        exact List.mem_singleton_self _

/-- The field that a prototype of a variant has says something, as the prototype was read. -/
theorem says_of_mem (h : s.PrototypeSays v p said) {x : Nat × Field} (hx : x ∈ p.fields) :
    ∃ part, s.FieldSays v x part ∧ ∀ m ∈ part, m ∈ said := by
  obtain ⟨parts, hparts, rfl⟩ := h.fields
  obtain ⟨part, hpart, hsaid⟩ := forall₂_exists_right hparts hx
  exact ⟨part, hsaid, fun m hm => List.mem_flatten.mpr ⟨part, hpart, hm⟩⟩

theorem mentions_iff (h : s.PrototypeSays v p said) : s.Mentions p c ↔ c ∈ said.map Prod.fst := by
  constructor
  · rintro ⟨⟨line, field⟩, hx, name, hname, hc⟩
    obtain ⟨part, hsaid, hpart⟩ := says_of_mem h hx
    cases hsaid with
    | input => cases hname
    | output hname' _ _ =>
      cases hname
      cases hc.symm.trans hname'
      exact List.mem_map_of_mem (hpart _ (List.mem_singleton_self _))
    | constant hname' _ =>
      cases hname
      cases hc.symm.trans hname'
      exact List.mem_map_of_mem (hpart _ (List.mem_singleton_self _))
  · intro hc
    obtain ⟨m, hm, rfl⟩ := List.mem_map.mp hc
    obtain ⟨x, hx, hsaid⟩ := (mem_said_iff h).mp hm
    cases hsaid with
    | output hname _ _ => exact ⟨_, hx, _, rfl, hname⟩
    | constant hname _ => exact ⟨_, hx, _, rfl, hname⟩

/-- The entries of a block are the roles that its prototype gives. -/
theorem entered_iff_gives (h : s.PrototypeSays v p said) :
    Entered (said ++ s.zeros v said) c role ↔ s.Gives v p c role := by
  constructor
  · rintro ⟨m, hm, rfl, rfl⟩
    rcases List.mem_append.mp hm with hm | hm
    · obtain ⟨x, hx, hsaid⟩ := (mem_said_iff h).mp hm
      cases hsaid with
      | output hname _ _ => exact .written hx hname
      | constant hname _ => exact .constant hx hname
    · obtain ⟨c, hc, rfl⟩ := List.mem_map.mp hm
      obtain ⟨hchannel, hnot⟩ := List.mem_filter.mp hc
      simp only [decide_eq_true_eq, ← mentions_iff h] at hnot
      have hzero : (Role.constant .zero).rounded = .constant .zero := by
        simp only [Role.rounded, Binary64.asPrinted_zero]
      rw [hzero]
      exact .omitted hchannel hnot
  · intro hgives
    cases hgives with
    | written hfield hname =>
      obtain ⟨part, hsaid, hpart⟩ := says_of_mem h hfield
      cases hsaid with
      | output hname' _ _ =>
        cases hname.symm.trans hname'
        exact ⟨_, List.mem_append_left _ (hpart _ (List.mem_singleton_self _)), rfl, rfl⟩
    | constant hfield hname =>
      obtain ⟨part, hsaid, hpart⟩ := says_of_mem h hfield
      cases hsaid with
      | constant hname' _ =>
        cases hname.symm.trans hname'
        exact ⟨_, List.mem_append_left _ (hpart _ (List.mem_singleton_self _)), rfl, rfl⟩
    | omitted hc hnot =>
      rw [mentions_iff h] at hnot
      have hmem : c ∈ (s.channels v).filter fun c => c ∉ said.map Prod.fst :=
        List.mem_filter.mpr ⟨hc, by simpa using hnot⟩
      refine ⟨(c, .constant .zero), List.mem_append_right _ (List.mem_map_of_mem hmem), rfl, ?_⟩
      simp only [Role.rounded, Binary64.asPrinted_zero]

def writtenChannels (said : List Statement) : List Channel :=
  (said.filter fun m => m.2 = .runtime).map Prod.fst

theorem mem_writtenChannels : c ∈ writtenChannels said ↔ (c, .runtime) ∈ said := by
  simp only [writtenChannels, List.mem_map, List.mem_filter, decide_eq_true_eq]
  constructor
  · rintro ⟨⟨d, role⟩, ⟨hm, rfl⟩, rfl⟩
    exact hm
  · intro hm
    exact ⟨(c, .runtime), ⟨hm, rfl⟩, rfl⟩

theorem writtenChannels_append (a b : List Statement) :
    writtenChannels (a ++ b) = writtenChannels a ++ writtenChannels b := by
  simp only [writtenChannels, List.filter_append, List.map_append]

/-- The outputs of a prototype are read as the channels that its fields say are written. -/
theorem forall₂_outputs (h : s.PrototypeSays v p said) :
    List.Forall₂ (fun x c => s.channelOfName x.name = .ok c ∧ s.HasType c x.type)
      ((p.fields.map Prod.snd).filterMap Field.output?) (writtenChannels said) := by
  obtain ⟨parts, hparts, rfl⟩ := h.fields
  clear h
  generalize p.fields = fields at hparts
  induction hparts with
  | nil => exact .nil
  | cons hsaid _ ih =>
    rw [List.flatten_cons, writtenChannels_append]
    cases hsaid with
    | input => exact ih
    | output hname _ htype => exact .cons ⟨hname, channelType_eq_ok_iff.mp htype⟩ ih
    | constant hname _ => exact ih

end Signature

namespace Header

variable {h : Header} {v : Variant} {p : Prototype} {l : Ledger}

/-- The header holds what the prototype of a variant says. -/
structure Agrees (h : Header) (v : Variant) (p : Prototype) : Prop where
  function : v.functionName h.name = .ok p.function
  inputs : (p.fields.map Prod.snd).filterMap Field.input? = h.inputs
  /-- The outputs are the emitted channels, each once and with the type of its output. -/
  outputs : ∃ channels,
    List.Forall₂ (fun x c => h.channelOfName x.name = .ok c ∧ h.HasType c x.type)
        ((p.fields.map Prod.snd).filterMap Field.output?) channels ∧
      channels.Nodup ∧ ∀ c, c ∈ channels ↔ c ∈ h.emitted v
  constants : ∀ line name x, (line, .constant name x) ∈ p.fields →
    ∃ c, h.channelOfName name = .ok c ∧ h.constants.get? c = some x.asPrinted
  omitted : ∀ c ∈ h.channels v, ¬ h.Mentions p c → h.constants.get? c = some .zero

/-- The blocks are those of the variants of the header, and what they say is what the header
holds. -/
structure IsSaidBy (h : Header) (blocks : List Block) : Prop where
  variants : (blocks.map Block.variant).Perm h.variants
  distinct : h.variants.Nodup
  written : ∀ b ∈ blocks, ∃! p : Prototype, p.IsWrittenIn b
  agrees : ∀ b ∈ blocks, ∀ p : Prototype, p.IsWrittenIn b → h.Agrees b.variant p
  /-- A constant comes from a block that gives it, by a remark or by leaving it out. -/
  constants : ∀ c x, h.constants.get? c = some x →
    ∃ b ∈ blocks, ∃ p : Prototype, p.IsWrittenIn b ∧ h.Gives b.variant p c (.constant x)
  consistent : ∀ b ∈ blocks, ∀ b' ∈ blocks, ∀ p p' : Prototype, p.IsWrittenIn b →
    p'.IsWrittenIn b' → ∀ c role role', h.Gives b.variant p c role →
    h.Gives b'.variant p' c role' → role = role'

/-- The written channels of a prototype are the emitted ones, if what it gives is what the header
holds. -/
theorem mem_writtenChannels_iff {said : List Statement} (hsaid : h.PrototypeSays v p said)
    (hrole : ∀ c role, h.Gives v p c role → h.role c = role) (c : Channel) :
    c ∈ Signature.writtenChannels said ↔ c ∈ h.emitted v := by
  rw [Signature.mem_writtenChannels, mem_emitted, ← role_eq_runtime_iff]
  constructor
  · intro hm
    obtain ⟨x, hx, hfield⟩ := (Signature.mem_said_iff hsaid).mp hm
    cases hfield with
    | output hname hvariant _ => exact ⟨hvariant, hrole c _ (.written hx hname)⟩
  · rintro ⟨hchannel, hruntime⟩
    -- An emitted channel is written, since a remark or an omission would make it constant.
    by_cases hmention : c ∈ said.map Prod.fst
    · obtain ⟨⟨d, role⟩, hm, rfl⟩ := List.mem_map.mp hmention
      obtain ⟨x, hx, hfield⟩ := (Signature.mem_said_iff hsaid).mp hm
      cases hfield with
      | output hname _ _ => exact hm
      | constant hname _ =>
        have hconstant := hrole d _ (.constant hx hname)
        rw [hruntime] at hconstant
        cases hconstant
    · rw [← Signature.mentions_iff hsaid] at hmention
      have hconstant := hrole c _ (.omitted (Signature.mem_channels.mpr hchannel) hmention)
      rw [hruntime] at hconstant
      cases hconstant

theorem agrees_of_gives {said : List Statement} (hsaid : h.PrototypeSays v p said)
    (hrole : ∀ c role, h.Gives v p c role → h.role c = role) : h.Agrees v p := by
  have hdistinct : (Signature.writtenChannels said).Nodup :=
    hsaid.distinct.sublist (List.filter_sublist.map Prod.fst)
  refine ⟨hsaid.function, p.inputs_eq.symm.trans hsaid.inputs, ⟨Signature.writtenChannels said,
    Signature.forall₂_outputs hsaid, hdistinct, mem_writtenChannels_iff hsaid hrole⟩, ?_, ?_⟩
  · intro line name x hx
    obtain ⟨part, hfield, -⟩ := Signature.says_of_mem hsaid hx
    cases hfield with
    | constant hname _ => exact ⟨_, hname, role_eq_constant_iff.mp (hrole _ _ (.constant hx hname))⟩
  · intro c hc hnot
    exact role_eq_constant_iff.mp (hrole c _ (.omitted hc hnot))

section Blocks

variable {blocks : List Block} {parts : List (List Statement)}

theorem roles_iff_gives (hparts : List.Forall₂ h.BlockSays blocks parts)
    (hl : Ledger.empty.recordAll h.toSignature parts.flatten = .ok l) (c : Channel) (role : Role) :
    l.roles.get? c = some role ↔
      ∃ b ∈ blocks, ∃ p : Prototype, p.IsWrittenIn b ∧ h.Gives b.variant p c role := by
  rw [recordAll_eq_ok_iff.mp hl]
  constructor
  · rintro (hempty | ⟨m, hm, hmc, hmrole⟩)
    · cases hempty
    · obtain ⟨all, hall, hm⟩ := List.mem_flatten.mp hm
      obtain ⟨b, hb, p, said, hp, hsaid, rfl⟩ := forall₂_exists_left hparts hall
      exact ⟨b, hb, p, Prototype.isWrittenIn_of_ofBlock hp,
        (Signature.entered_iff_gives hsaid).mp ⟨m, hm, hmc, hmrole⟩⟩
  · rintro ⟨b, hb, p, hp, hgives⟩
    obtain ⟨all, hall, p', said, hp', hsaid, rfl⟩ := forall₂_exists_right hparts hb
    obtain rfl := hp.unique (Prototype.isWrittenIn_of_ofBlock hp')
    obtain ⟨m, hm, hmc, hmrole⟩ := (Signature.entered_iff_gives hsaid).mpr hgives
    exact .inr ⟨m, List.mem_flatten.mpr ⟨_, hall, hm⟩, hmc, hmrole⟩

theorem exists_prototype_of_ofBlocks (hblocks : ofBlocks blocks = .ok h) :
    ∀ b ∈ blocks, ∃ p, Prototype.ofBlock b = .ok p := by
  obtain ⟨first, rest, p, l, -, -, -, -, hs, hl, hh⟩ := ofBlocks_eq_ok_iff.mp hblocks
  obtain ⟨parts, hparts, -⟩ := Signature.foldlM_readBlock_eq_ok_iff.mp hl
  intro b hb
  obtain ⟨all, -, p, said, hp, -⟩ := forall₂_exists_right hparts hb
  exact ⟨p, hp⟩

theorem isSaidBy_of_ofBlocks (hblocks : ofBlocks blocks = .ok h) : h.IsSaidBy blocks := by
  obtain ⟨first, rest, p, l, -, -, -, -, hs, hl, hh⟩ := ofBlocks_eq_ok_iff.mp hblocks
  obtain ⟨vs, hvs, hsignature, -⟩ := Signature.ofParts_eq_ok_iff.mp hs
  obtain ⟨-, hheader⟩ := ofSignature_eq_ok_iff.mp hh
  obtain ⟨parts, hparts, hledger⟩ := Signature.foldlM_readBlock_eq_ok_iff.mp hl
  have hordered := (Signature.isChecked_ofParts hs).ordered
  have hvariants : h.variants = vs := congrArg Signature.variants hsignature
  have hconstants : l.constants = h.constants := (congrArg Header.constants hheader).symm
  have hgives : ∀ b ∈ blocks, ∀ p : Prototype, p.IsWrittenIn b →
      ∀ c role, h.Gives b.variant p c role → h.role c = role := by
    intro b hb p hp c role hgives
    exact role_of_ledger hconstants
      ((roles_iff_gives hparts hledger c role).mpr ⟨b, hb, p, hp, hgives⟩)
  refine ⟨?_, hordered.distinct, ?_, ?_, ?_, ?_⟩
  · obtain ⟨⟨-, hdistinct⟩, -⟩ := Variant.inOrder_eq_ok_iff.mp hvs
    refine (List.perm_ext_iff_of_nodup hdistinct hordered.distinct).mpr fun v => ?_
    rw [hvariants]
    exact (Variant.mem_of_inOrder hvs v).symm
  · intro b hb
    obtain ⟨p, hp⟩ := exists_prototype_of_ofBlocks hblocks b hb
    have hwritten := Prototype.isWrittenIn_of_ofBlock hp
    exact ⟨p, hwritten, fun p' hp' => hp'.unique hwritten⟩
  · intro b hb p hp
    obtain ⟨all, -, p', said, hp', hsaid, -⟩ := forall₂_exists_right hparts hb
    obtain rfl := hp.unique (Prototype.isWrittenIn_of_ofBlock hp')
    exact agrees_of_gives hsaid (hgives b hb p hp)
  · intro c x hx
    rw [← hconstants, get?_constants_eq_some_iff] at hx
    exact (roles_iff_gives hparts hledger c _).mp hx
  · intro b hb b' hb' p p' hp hp' c role role' hrole hrole'
    exact (hgives b hb p hp c role hrole).symm.trans (hgives b' hb' p' hp' c role' hrole')

end Blocks

/-- The markers cut an accepted text into blocks that say what its header holds. -/
theorem isSaidBy_of_ofText {text : String} (ht : ofText text = .ok h) :
    ∃ preface sections blocks, Block.IsPartition preface sections [] (Line.ofText text.toList) ∧
      List.Forall₂ Block.Section.Makes sections blocks ∧ h.IsSaidBy blocks := by
  obtain ⟨blocks, hlocate, hblocks⟩ := ofText_eq_ok_iff.mp ht
  obtain ⟨preface, sections, hpartition, hmakes⟩ := Block.locate_eq_ok_iff.mp hlocate
  exact ⟨preface, sections, blocks, hpartition, hmakes, isSaidBy_of_ofBlocks hblocks⟩

/-- A text with two blocks, the second with a constant. -/
def linearLines : List String :=
  ["//=====[Option]=====", "//\x7b", "// \"enable_1st_order_derivative\": false,",
    "// \"enable_2nd_order_derivative\": false", "//\x7d",
    "//=====[Option]=====", "void f(double x,", "double* y);", "//=====[Option]=====", "//\x7b",
    "// \"enable_1st_order_derivative\": true,",
    "// \"enable_2nd_order_derivative\": false", "//\x7d", "//=====[Option]=====",
    "void fWithFirstOrderDerivatives(double x,", "double* y", "/* D_y_D_x = -2.5 */);"]

/-- The header of these lines. -/
def linearHeader : Header where
  name := "f"
  inputs := [⟨"double", "x"⟩]
  outputs := [⟨"double", "y"⟩]
  variants := [.plain, ⟨true, false⟩]
  constants := ChannelMap.empty.insert (.first 0 0) (.nearest true 5 2)

theorem isSaidBy_of_linearLines : ofText ("\n".intercalate linearLines) = .ok linearHeader ∧
    linearHeader.constants.get? (.first 0 0) = some (.nearest true 5 2) ∧
    ∃ preface sections blocks,
      Block.IsPartition preface sections [] (Line.ofText ("\n".intercalate linearLines).toList) ∧
        List.Forall₂ Block.Section.Makes sections blocks ∧ linearHeader.IsSaidBy blocks := by
  have htext :
      ("\n".intercalate linearLines).toList = ['\n'].intercalate (linearLines.map String.toList) :=
    String.toList_intercalate
  have hread :
      (Block.locate (Line.ofText (['\n'].intercalate (linearLines.map String.toList))) >>=
        ofBlocks) = .ok linearHeader := eq_ok_of_toOption (by decide +kernel)
  have ht : ofText ("\n".intercalate linearLines) = .ok linearHeader := by
    rw [ofText, htext]
    exact hread
  exact ⟨ht, (ChannelMap.get?_insert ..).trans (if_pos rfl), isSaidBy_of_ofText ht⟩

end Header

end DerivativeHeaders
