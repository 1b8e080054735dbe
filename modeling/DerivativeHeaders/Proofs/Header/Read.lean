import DerivativeHeaders.Header.Read
import DerivativeHeaders.Proofs.Ledger
import DerivativeHeaders.Proofs.Signature

/-! # What blocks say about the channels

A block says something about every channel of its variant: a field that mentions the channel says
whether it is written or constant, and a channel that no field mentions is zero. Reading blocks
succeeds exactly when one ledger takes in all that they say.
-/
namespace DerivativeHeaders

open Outcome Ledger

namespace Field

def input? : Field → Option Variable
  | input x => some x
  | _ => none

def output? : Field → Option Variable
  | output type name => some ⟨type, name⟩
  | _ => none

end Field

def Line.trimmed (l : Line) : Line := { l with text := Text.trim l.text }

@[simp] theorem Line.trimmed_text (l : Line) : l.trimmed.text = Text.trim l.text := rfl

@[simp] theorem Line.trimmed_number (l : Line) : l.trimmed.number = l.number := rfl

namespace Prototype

theorem ofLines_eq_ok_iff {first : Line} {rest : List Line} {p : Prototype} :
    ofLines first rest = .ok p ↔ ∃ text lines, readOpening first = .ok (p.function, text) ∧
      fieldLines? (⟨first.number, text⟩ :: rest) = some lines ∧
      lines.mapM (fun l => (l.number, ·) <$> Field.ofText l.number l.text) = .ok p.fields := by
  rw [ofLines, bind_eq_ok]
  constructor
  · rintro ⟨⟨function, text⟩, hopening, h⟩
    dsimp only at h
    split at h
    · cases h
    · rename_i lines hlines
      obtain ⟨fields, hfields, hp⟩ := bind_eq_ok.mp h
      cases pure_eq_ok.mp hp
      exact ⟨text, lines, hopening, hlines, hfields⟩
  · rintro ⟨text, lines, hopening, hlines, hfields⟩
    refine ⟨(p.function, text), hopening, ?_⟩
    simp only [hlines, hfields]
    rfl

theorem ofBlock_eq (b : Block) : ofBlock b =
    match (b.body.map Line.trimmed).dropWhile fun l => !startsPrototype l.text with
    | [] => .error (.line b.opened (.noPrototype b.variant))
    | first :: rest => ofLines first rest := rfl

/-- A block is read from the first line that starts with `void`. -/
theorem ofBlock_eq_ok_iff {b : Block} {p : Prototype} : ofBlock b = .ok p ↔
    ∃ first rest, ((b.body.map Line.trimmed).dropWhile fun l => !startsPrototype l.text) =
      first :: rest ∧ ofLines first rest = .ok p := by
  rw [ofBlock_eq]
  cases (b.body.map Line.trimmed).dropWhile fun l => !startsPrototype l.text with
  | nil => simp
  | cons first rest => simp

theorem inputs_eq (p : Prototype) : p.inputs = (p.fields.map Prod.snd).filterMap Field.input? := by
  rw [List.filterMap_map]
  rfl

theorem outputs_eq (p : Prototype) :
    p.outputs = (p.fields.map Prod.snd).filterMap Field.output? := by
  rw [List.filterMap_map]
  rfl

theorem checkDefault_eq_ok_iff {p : Prototype} :
    p.checkDefault = .ok () ↔
      ∀ field ∈ p.fields.map Prod.snd, ∀ name x, field ≠ .constant name x := by
  rw [checkDefault, forM_eq_ok_iff, List.forall_mem_map]
  refine forall₂_congr fun x _ => ?_
  obtain ⟨line, field⟩ := x
  cases field <;> simp

end Prototype

namespace Signature

variable {s : Signature} {v : Variant} {l l' : Ledger} {t t' : Tally} {x : Nat × Field}
  {said : List Statement} {c : Channel}

/-- What a numbered field says about a channel of the variant. -/
inductive FieldSays (s : Signature) (v : Variant) : Nat × Field → List Statement → Prop
  | input {line : Nat} {x : Variable} : FieldSays s v (line, .input x) []
  | output {line : Nat} {type name : String} {c : Channel} (hname : s.channelOfName name = .ok c)
      (hvariant : s.hasChannel v c) (htype : s.channelType c = .ok type) :
      FieldSays s v (line, .output type name) [(c, .runtime)]
  | constant {line : Nat} {name : String} {x : Binary64} {c : Channel}
      (hname : s.channelOfName name = .ok c)
      (hvariant : s.hasChannel v c) : FieldSays s v (line, .constant name x) [(c, .constant x)]

theorem blockChannel_eq_ok_iff {line : Nat} {name : String} :
    s.blockChannel v line name = .ok c ↔ s.channelOfName name = .ok c ∧ s.hasChannel v c := by
  simp only [blockChannel, bind_eq_ok]
  constructor
  · rintro ⟨d, hd, h⟩
    split at h
    · cases h
      exact ⟨hd, by assumption⟩
    · cases h
  · rintro ⟨hname, hvariant⟩
    exact ⟨c, hname, if_pos hvariant⟩

theorem mention_eq_ok_iff {line : Nat} {name : String} {role : Role} :
    s.mention t line name c role = .ok t' ↔ c ∉ t.seen ∧ ∃ l, t.ledger.record s c role = .ok l ∧
      t' = ⟨l, c :: t.seen⟩ := by
  simp only [mention, guard_eq_ok, bind_eq_ok, pure_eq_ok, @eq_comm _ t']

/-- The tally takes in the entries, none of which is about a channel seen before. -/
structure Adds (s : Signature) (t : Tally) (said : List Statement) (t' : Tally) : Prop where
  distinct : (said.map Prod.fst).Nodup
  unseen : ∀ c ∈ said.map Prod.fst, c ∉ t.seen
  ledger : t.ledger.recordAll s said = .ok t'.ledger
  seen : t'.seen = (said.map Prod.fst).reverse ++ t.seen

theorem adds_nil_iff : s.Adds t [] t' ↔ t = t' := by
  constructor
  · rintro ⟨-, -, hledger, hseen⟩
    obtain ⟨ledger, seen⟩ := t'
    simp only [recordAll, foldlM_nil_eq_ok] at hledger
    subst hledger
    cases hseen
    rfl
  · rintro rfl
    exact ⟨List.nodup_nil, fun _ hm => absurd hm List.not_mem_nil, rfl, rfl⟩

theorem adds_singleton_iff {m : Statement} {line : Nat} {name : String} :
    s.mention t line name m.1 m.2 = .ok t' ↔ s.Adds t [m] t' := by
  rw [mention_eq_ok_iff]
  constructor
  · rintro ⟨hunseen, l, hl, rfl⟩
    refine ⟨by simp, by simpa using hunseen, ?_, rfl⟩
    rw [recordAll, foldlM_cons_eq_ok]
    exact ⟨l, hl, rfl⟩
  · rintro ⟨-, hunseen, hledger, hseen⟩
    rw [recordAll, foldlM_cons_eq_ok] at hledger
    obtain ⟨l, hl, hnil⟩ := hledger
    cases hnil
    refine ⟨hunseen m.1 (by simp), _, hl, ?_⟩
    obtain ⟨ledger, seen⟩ := t'
    cases hseen
    rfl

theorem adds_append_iff {a b : List Statement} :
    s.Adds t (a ++ b) t' ↔ ∃ u, s.Adds t a u ∧ s.Adds u b t' := by
  constructor
  · rintro ⟨hdistinct, hunseen, hledger, hseen⟩
    rw [List.map_append] at hdistinct hunseen hseen
    rw [recordAll_append, bind_eq_ok] at hledger
    obtain ⟨l, ha, hb⟩ := hledger
    obtain ⟨hda, hdb, hdisjoint⟩ := List.nodup_append.mp hdistinct
    refine ⟨⟨l, (a.map Prod.fst).reverse ++ t.seen⟩,
      ⟨hda, fun c hc => hunseen c (List.mem_append_left _ hc), ha, rfl⟩,
      ⟨hdb, fun c hc => ?_, hb, ?_⟩⟩
    · simp only [List.mem_append, List.mem_reverse, not_or]
      exact ⟨fun hca => hdisjoint c hca c hc rfl, hunseen c (List.mem_append_right _ hc)⟩
    · rw [hseen, List.reverse_append, List.append_assoc]
  · rintro ⟨u, ⟨hda, hua, hla, hsa⟩, hdb, hub, hlb, hsb⟩
    rw [hsa] at hub hsb
    simp only [List.mem_append, List.mem_reverse, not_or] at hub
    refine ⟨?_, ?_, ?_, ?_⟩
    · rw [List.map_append, List.nodup_append]
      exact ⟨hda, hdb, fun c hca d hcb heq => (hub d hcb).1 (heq ▸ hca)⟩
    · intro c hc
      rw [List.map_append, List.mem_append] at hc
      rcases hc with hc | hc
      · exact hua c hc
      · exact (hub c hc).2
    · rw [recordAll_append, hla]
      exact hlb
    · rw [hsb, List.map_append, List.reverse_append, List.append_assoc]

theorem addField_eq_ok_iff :
    s.addField v t x = .ok t' ↔ ∃ said, s.FieldSays v x said ∧ s.Adds t said t' := by
  obtain ⟨line, field⟩ := x
  cases field with
  | input y =>
    constructor
    · intro h
      exact ⟨[], .input, adds_nil_iff.mpr (Except.ok.inj h)⟩
    · rintro ⟨_, ⟨⟩, h⟩
      exact congrArg Except.ok (adds_nil_iff.mp h)
  | output type name =>
    simp only [addField, bind_eq_ok, blockChannel_eq_ok_iff]
    constructor
    · rintro ⟨c, ⟨hname, hvariant⟩, ⟨⟩, htype, h⟩
      exact ⟨_, .output hname hvariant (checkType_eq_ok_iff.mp htype), adds_singleton_iff.mp h⟩
    · rintro ⟨_, ⟨⟩ | ⟨hname, hvariant, htype⟩, h⟩
      exact ⟨_, ⟨hname, hvariant⟩, (), checkType_eq_ok_iff.mpr htype, adds_singleton_iff.mpr h⟩
  | constant name y =>
    simp only [addField, bind_eq_ok, blockChannel_eq_ok_iff]
    constructor
    · rintro ⟨c, ⟨hname, hvariant⟩, h⟩
      exact ⟨_, .constant hname hvariant, adds_singleton_iff.mp h⟩
    · rintro ⟨_, ⟨⟩ | ⟨⟩ | ⟨hname, hvariant⟩, h⟩
      exact ⟨_, ⟨hname, hvariant⟩, adds_singleton_iff.mpr h⟩

/-- The fields of a block are taken in together. -/
theorem foldlM_addField_eq_ok_iff {fields : List (Nat × Field)} :
    fields.foldlM (s.addField v) t = .ok t' ↔ ∃ parts, List.Forall₂ (s.FieldSays v) fields parts ∧
      s.Adds t parts.flatten t' := by
  induction fields generalizing t with
  | nil =>
    simp only [foldlM_nil_eq_ok, List.forall₂_nil_left_iff, exists_eq_left,
      List.flatten_nil, adds_nil_iff]
  | cons x fields ih =>
    simp only [foldlM_cons_eq_ok, addField_eq_ok_iff, ih, List.forall₂_cons_left_iff]
    constructor
    · rintro ⟨u, ⟨said, hsaid, hu⟩, parts, hparts, ht⟩
      exact ⟨said :: parts, ⟨said, parts, hsaid, hparts, rfl⟩, adds_append_iff.mpr ⟨u, hu, ht⟩⟩
    · rintro ⟨_, ⟨said, parts, hsaid, hparts, rfl⟩, h⟩
      obtain ⟨u, hu, ht⟩ := adds_append_iff.mp h
      exact ⟨u, ⟨said, hsaid, hu⟩, parts, hparts, ht⟩

/-- The channels of a variant that no entry is about, each said to be zero. -/
def zeros (s : Signature) (v : Variant) (said : List Statement) : List Statement :=
  ((s.channels v).filter fun c => c ∉ said.map Prod.fst).map (·, .constant .zero)

/-- A prototype of a variant, with what its fields say about the channels. -/
structure PrototypeSays (s : Signature) (v : Variant) (p : Prototype)
    (said : List Statement) : Prop where
  function : s.functionName v = .ok p.function
  inputs : p.inputs = s.inputs
  fields : ∃ parts, List.Forall₂ (s.FieldSays v) p.fields parts ∧ parts.flatten = said
  distinct : (said.map Prod.fst).Nodup

theorem addBlock_eq_ok_iff {b : Block} {p : Prototype} : s.addBlock l b p = .ok l' ↔
    ∃ said, s.PrototypeSays b.variant p said ∧
      l.recordAll s (said ++ s.zeros b.variant said) = .ok l' := by
  have hseen (said : List Statement) :
      ((s.channels b.variant).filter fun c => c ∉ (said.map Prod.fst).reverse ++ []).map
      (·, Role.constant .zero) = s.zeros b.variant said := by
    simp only [zeros, List.append_nil, List.mem_reverse]
  simp only [addBlock, bind_eq_ok, guard_eq_ok, ne_eq, not_not]
  constructor
  · rintro ⟨expected, hexpected, rfl, t, ht, hinputs, h⟩
    obtain ⟨parts, hparts, hdistinct, -, hledger, hlast⟩ := foldlM_addField_eq_ok_iff.mp ht
    refine ⟨parts.flatten, ⟨hexpected, hinputs, ⟨parts, hparts, rfl⟩, hdistinct⟩, ?_⟩
    rw [recordZeros_eq, hlast, hseen] at h
    rw [recordAll_append, hledger]
    exact h
  · rintro ⟨said, ⟨hfunction, hinputs, ⟨parts, hparts, rfl⟩, hdistinct⟩, hledger⟩
    rw [recordAll_append, bind_eq_ok] at hledger
    obtain ⟨u, hu, hledger⟩ := hledger
    refine ⟨p.function, hfunction, rfl, ⟨u, (parts.flatten.map Prod.fst).reverse ++ []⟩,
      ?_, hinputs, ?_⟩
    · exact foldlM_addField_eq_ok_iff.mpr ⟨parts, hparts, hdistinct, by simp, hu, rfl⟩
    · rw [recordZeros_eq, hseen]
      exact hledger

/-- A block, with what it says about every channel of its variant. -/
def BlockSays (s : Signature) (b : Block) (all : List Statement) : Prop :=
  ∃ p said, Prototype.ofBlock b = .ok p ∧ s.PrototypeSays b.variant p said ∧
    all = said ++ s.zeros b.variant said

theorem readBlock_eq_ok_iff {b : Block} :
    s.readBlock l b = .ok l' ↔ ∃ all, s.BlockSays b all ∧ l.recordAll s all = .ok l' := by
  simp only [readBlock, bind_eq_ok, addBlock_eq_ok_iff]
  constructor
  · rintro ⟨p, hp, said, hsaid, h⟩
    exact ⟨_, ⟨p, said, hp, hsaid, rfl⟩, h⟩
  · rintro ⟨_, ⟨p, said, hp, hsaid, rfl⟩, h⟩
    exact ⟨p, hp, said, hsaid, h⟩

/-- Blocks are read exactly when one ledger takes in all that they say. -/
theorem foldlM_readBlock_eq_ok_iff {blocks : List Block} : blocks.foldlM s.readBlock l = .ok l' ↔
    ∃ parts, List.Forall₂ s.BlockSays blocks parts ∧ l.recordAll s parts.flatten = .ok l' := by
  have hflatten (parts : List (List Statement)) (l : Ledger) :
      parts.foldlM (fun l all => l.recordAll s all) l = l.recordAll s parts.flatten := by
    induction parts generalizing l with
    | nil => rfl
    | cons all parts ih => simp only [List.foldlM_cons, List.flatten_cons, recordAll_append, ih]
  have hstep : ∀ l b l', s.readBlock l b = .ok l' ↔ ∃ all, s.BlockSays b all ∧
      l.recordAll s all = .ok l' :=
    fun l b l' => readBlock_eq_ok_iff
  simp only [foldlM_eq_ok_iff hstep, hflatten]

end Signature

namespace Header

/-- The first block gives the signature, and all blocks are read by it. -/
theorem ofBlocks_eq_ok_iff {blocks : List Block} {h : Header} : ofBlocks blocks = .ok h ↔
    ∃ first rest p l, blocks = first :: rest ∧ first.variant = .plain ∧
      Prototype.ofBlock first = .ok p ∧ p.checkDefault = .ok () ∧
      Signature.ofParts p.function p.inputs p.outputs (blocks.map Block.variant) =
        .ok h.toSignature ∧
      blocks.foldlM h.readBlock .empty = .ok l ∧
      ofSignature h.toSignature l.constants = .ok h := by
  cases blocks with
  | nil => simp [ofBlocks]
  | cons first rest =>
    simp only [ofBlocks, guard_eq_ok, bind_eq_ok, ne_eq, not_not, foldlM_cons_eq_ok,
      Signature.readBlock]
    constructor
    · rintro ⟨hplain, p, hp, ⟨⟩, hdefault, s, hs, u, hu, l, hl, h'⟩
      have hsignature : h.toSignature = s := by
        obtain ⟨_, -, hpure⟩ := bind_eq_ok.mp h'
        rw [← pure_eq_ok.mp hpure]
      subst hsignature
      exact ⟨first, rest, p, l, rfl, hplain, hp, hdefault, hs, ⟨u, ⟨p, hp, hu⟩, hl⟩, h'⟩
    · rintro ⟨_, _, p, l, heq, hplain, hp, hdefault, hs, ⟨u, ⟨p', hp', hu⟩, hl⟩, h'⟩
      cases heq
      rw [hp] at hp'
      cases hp'
      exact ⟨hplain, p, hp, (), hdefault, h.toSignature, hs, u, hu, l, hl, h'⟩

theorem ofText_eq_ok_iff {text : String} {h : Header} : ofText text = .ok h ↔
    ∃ blocks, Block.locate (Line.ofText text.toList) = .ok blocks ∧ ofBlocks blocks = .ok h := by
  rw [ofText, bind_eq_ok]

end Header

end DerivativeHeaders
