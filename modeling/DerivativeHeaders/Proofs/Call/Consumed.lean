import DerivativeHeaders.Call
import DerivativeHeaders.Proofs.Header.Invariant
import DerivativeHeaders.Proofs.Header.Roles

/-! # Consumed channels of a call

A call can be made exactly when it is wanted as the header offers it. Then every consumed channel is
written to its destination or is one of the constants, and the channels that nobody consumes go to
one local variable for each type. The statement declares these variables and makes the call.
-/
namespace DerivativeHeaders

open Outcome

namespace Usage

variable {u : Usage} {c : Channel}

def Consumes (u : Usage) (c : Channel) : Prop := u.uses.contains c

/-- Where a consumed channel goes, if it has a destination. -/
def destination? (u : Usage) (c : Channel) : Option String := (u.uses.get? c).join

theorem consumes_of_destination {d : String} (h : u.destination? c = some d) : u.Consumes c := by
  rw [destination?, Option.join_eq_some_iff] at h
  exact ChannelMap.contains_iff.mpr ⟨_, h⟩

instance : Decidable (u.Consumes c) := inferInstanceAs (Decidable (u.uses.contains c = true))

/-- The usage has these inputs and consumes these channels, and their destinations are looked up. -/
structure Offers (u : Usage) (inputs : List String) (consumed : List Channel)
    (lookup : Channel → Option String) : Prop where
  inputs_eq : u.inputs = inputs
  consumes_iff : ∀ c, u.Consumes c ↔ c ∈ consumed
  destination_eq : ∀ c ∈ consumed, u.destination? c = lookup c

/-- Any channels can be consumed, with any look-up of their destinations. -/
theorem exists_offers (inputs : List String) (consumed : List Channel)
    (lookup : Channel → Option String) : ∃ u : Usage, u.Offers inputs consumed lookup := by
  refine ⟨⟨inputs, .ofList (consumed.map fun c => (c, lookup c))⟩, rfl, fun c => ?_, fun c hc => ?_⟩
  · rw [Consumes, ChannelMap.contains, ChannelMap.get?_ofList_map]
    by_cases hc : c ∈ consumed
    · simp [hc]
    · simp [hc]
  · rw [destination?, ChannelMap.get?_ofList_map, if_pos hc, Option.join_some]

end Usage

namespace Target

variable {type : String} {seen : List String} {targets : List Target}

def unused? : Target → Option String
  | destination _ => none
  | unused type => some type

theorem unused?_eq_some_iff {target : Target} :
    target.unused? = some type ↔ target = .unused type := by
  cases target <;> simp [unused?]

theorem unusedTypes_eq (seen : List String) (targets : List Target) :
    unusedTypes seen targets =
      ((targets.filterMap unused?).filter fun type => type ∉ seen).eraseDups := by
  induction targets generalizing seen with
  | nil => rfl
  | cons target targets ih =>
    cases target with
    | destination name => exact ih seen
    | unused type =>
      rw [unusedTypes, List.filterMap_cons_some (unused?_eq_some_iff.mpr rfl)]
      by_cases hseen : type ∈ seen
      · rw [if_pos hseen, List.filter_cons_of_neg (by simpa using hseen), ih]
      · rw [if_neg hseen, List.filter_cons_of_pos (by simpa using hseen), List.eraseDups_cons,
          List.filter_filter, ih]
        simp only [List.mem_cons, not_or, Bool.decide_and, decide_not, Bool.beq_eq_decide_eq]

theorem mem_unusedTypes :
    type ∈ unusedTypes seen targets ↔ type ∉ seen ∧ .unused type ∈ targets := by
  rw [unusedTypes_eq, List.mem_eraseDups, List.mem_filter, List.mem_filterMap,
    decide_eq_true_eq, and_comm]
  simp only [unused?_eq_some_iff, exists_eq_right]

theorem nodup_unusedTypes (seen : List String) (targets : List Target) :
    (unusedTypes seen targets).Nodup := by
  induction targets generalizing seen with
  | nil => exact List.nodup_nil
  | cons target targets ih =>
    cases target with
    | destination name => exact ih seen
    | unused type =>
      rw [unusedTypes]
      split
      · exact ih seen
      · refine List.nodup_cons.mpr ⟨fun hmem => ?_, ih _⟩
        exact (mem_unusedTypes.mp hmem).1 List.mem_cons_self

end Target

namespace CallStatement

/-- A block that declares a variable of each of the types and makes a call. -/
def block (types : List String) (callee : String) (arguments : List String) : List String :=
  ["\x7b"] ++ types.map (fun type => "  " ++ type ++ " G_UNUSED_" ++ type ++ ";") ++
    ["  " ++ callee ++ "(" ++ ", ".intercalate arguments ++ ");", "\x7d"]

theorem lines_eq (s : CallStatement) : s.lines = block s.locals s.callee s.arguments := by
  have hdeclaration (type : String) :
      declaration type = "  " ++ type ++ " G_UNUSED_" ++ type ++ ";" := by
    have hname : " " ++ unusedStart = " G_UNUSED_" := rfl
    rw [declaration, @String.append_assoc _ " ", hname]
  rw [lines, block, List.map_congr_left fun type _ => hdeclaration type]

end CallStatement

namespace Header

variable {h : Header} {v : Variant} {u : Usage} {c : Channel} {space : Option String}
  {site : CallStatement}

/-- The call is wanted as the header offers it. -/
structure Suits (h : Header) (v : Variant) (u : Usage) (space : Option String) : Prop where
  space : ∀ path, space = some path → IsQualified path
  supported : h.supports v
  inputs : u.inputs.length = h.inputs.length
  available : ∀ c, u.Consumes c → c ∈ h.channels v
  destination : ∀ c ∈ h.emitted v, u.Consumes c → ∃ d, u.destination? c = some d

/-- What a call passes for an emitted channel. -/
inductive Passes (h : Header) (u : Usage) (c : Channel) : String → Prop
  | destination {d : String} (hd : u.destination? c = some d) : Passes h u c ("&" ++ d)
  | unused {type : String} (hc : ¬ u.Consumes c) (htype : h.HasType c type) :
    Passes h u c ("&G_UNUSED_" ++ type)

/-- A statement leaves out no channel that is consumed. -/
structure Accounts (h : Header) (v : Variant) (u : Usage) (site : CallStatement) : Prop where
  lines : site.lines = CallStatement.block site.locals site.callee site.arguments
  text : site.text = "\n".intercalate site.lines
  /-- After the inputs, one argument stands for each emitted channel in ascending order. -/
  arguments : ∃ outs, site.arguments = u.inputs ++ outs ∧
    List.Forall₂ (h.Passes u) (h.emitted v) outs
  /-- A consumed channel is passed at its only place, or else is a constant. -/
  consumed : ∀ c, u.Consumes c →
    (∃ d i, u.destination? c = some d ∧ (∀ j, (h.emitted v)[j]? = some c ↔ j = i) ∧
      site.arguments[u.inputs.length + i]? = some ("&" ++ d) ∧ site.constants.get? c = none) ∨
    c ∉ h.emitted v ∧ ∃ x, h.constants.get? c = some x ∧ site.constants.get? c = some x
  constants : ∀ c, site.constants.contains c → u.Consumes c
  /-- There is one local variable for each type of a channel that is not consumed. -/
  locals : ∀ type, type ∈ site.locals ↔ ∃ c ∈ h.emitted v, ¬ u.Consumes c ∧ h.HasType c type
  locals_nodup : site.locals.Nodup
  /-- The local variables stand in the order of their first use. -/
  locals_order : ∃ types, List.Forall₂ h.HasType
    ((h.emitted v).filter fun c => ¬ u.Consumes c) types ∧ site.locals = types.eraseDups

theorem checkNamespace_eq_ok_iff :
    checkNamespace space = .ok () ↔ ∀ path, space = some path → IsQualified path := by
  cases space with
  | none => simp [checkNamespace]
  | some path => simp [checkNamespace, isQualifiedPath_iff]

theorem checkUsage_eq_ok_iff : h.checkUsage v u = .ok () ↔
    h.supports v ∧ u.inputs.length = h.inputs.length ∧ ∀ c, u.Consumes c → c ∈ h.channels v := by
  have hfind : u.uses.keys.find? (fun c => !h.hasChannel v c) = none ↔ ∀ c, u.Consumes c →
      c ∈ h.channels v := by
    simp only [List.find?_eq_none, ChannelMap.mem_keys_iff, Signature.mem_channels, Usage.Consumes,
      Bool.not_eq_true', Bool.not_eq_false]
  rw [checkUsage, guard_eq_ok, guard_eq_ok, Bool.not_eq_true', Bool.not_eq_false, not_not, ← hfind]
  cases u.uses.keys.find? fun c => !h.hasChannel v c with
  | none => simp [pure_eq_ok]
  | some c => simp [throw, throwThe, MonadExceptOf.throw]

theorem target_eq_ok_iff {target : Target} : h.target u c = .ok target ↔
    (∃ d, u.destination? c = some d ∧ target = .destination d) ∨
      ¬ u.Consumes c ∧ ∃ type, h.HasType c type ∧ target = .unused type := by
  simp only [← Signature.channelType_eq_ok_iff, Header.target, Usage.destination?, Usage.Consumes,
    ChannelMap.contains]
  cases u.uses.get? c with
  | none => simp [map_eq_ok, @eq_comm _ target]
  | some destination => cases destination <;> simp [eq_comm]

theorem get?_resolved {x : Binary64} : (h.resolved v u).get? c = some x ↔
    h.constants.get? c = some x ∧ h.hasChannel v c ∧ u.Consumes c := by
  rw [resolved, ChannelMap.get?_filterMap, Option.bind_eq_some_iff]
  simp only [Option.ite_none_right_eq_some, Bool.and_eq_true, Option.some.injEq, Usage.Consumes]
  constructor
  · rintro ⟨y, hy, hc, rfl⟩
    exact ⟨hy, hc⟩
  · rintro ⟨hx, hc⟩
    exact ⟨x, hx, hc, rfl⟩

theorem calleeName_eq (hc : h.IsChecked) (v : Variant) (space : Option String) :
    h.calleeName v space = .ok (space.elim "" (· ++ "::") ++ v.extendName h.name) := by
  rw [calleeName, hc.functionName_eq]
  cases space with
  | none => exact congrArg Except.ok (String.empty_append).symm
  | some path => rfl

theorem call_eq_ok_iff (hc : h.IsChecked) : h.call v u space = .ok site ↔
    checkNamespace space = .ok () ∧ h.checkUsage v u = .ok () ∧
      ∃ targets, List.Forall₂ (fun c target => h.target u c = .ok target) (h.emitted v) targets ∧
        site = ⟨space.elim "" (· ++ "::") ++ v.extendName h.name,
          u.inputs ++ targets.map Target.argument, Target.unusedTypes [] targets,
          h.resolved v u⟩ := by
  simp only [call, bind_eq_ok, pure_eq_ok, calleeName_eq hc, mapM_eq_ok_iff, Except.ok.injEq]
  constructor
  · rintro ⟨⟨⟩, hspace, ⟨⟩, husage, targets, htargets, _, rfl, rfl⟩
    exact ⟨hspace, husage, targets, htargets, rfl⟩
  · rintro ⟨hspace, husage, targets, htargets, rfl⟩
    exact ⟨(), hspace, (), husage, targets, htargets, _, rfl, rfl⟩

/-- Emitted channels have targets exactly when each that is consumed has a destination. -/
theorem exists_target_iff (hchannel : h.hasChannel v c) :
    (∃ target, h.target u c = .ok target) ↔ (u.Consumes c → ∃ d, u.destination? c = some d) := by
  simp only [target_eq_ok_iff]
  constructor
  · rintro ⟨target, ⟨d, hd, -⟩ | ⟨hnot, -⟩⟩ hconsumes
    · exact ⟨d, hd⟩
    · exact absurd hconsumes hnot
  · intro himp
    by_cases hconsumes : u.Consumes c
    · obtain ⟨d, hd⟩ := himp hconsumes
      exact ⟨.destination d, .inl ⟨d, hd, rfl⟩⟩
    · obtain ⟨type, htype⟩ := Signature.exists_hasType hchannel
      exact ⟨.unused type, .inr ⟨hconsumes, type, htype, rfl⟩⟩

theorem exists_call_iff (hc : h.IsChecked) :
    (∃ site, h.call v u space = .ok site) ↔ h.Suits v u space := by
  simp only [call_eq_ok_iff hc, checkNamespace_eq_ok_iff, checkUsage_eq_ok_iff]
  constructor
  · rintro ⟨site, hspace, ⟨hv, hinputs, havailable⟩, targets, htargets, -⟩
    refine ⟨hspace, hv, hinputs, havailable, fun c hmem => ?_⟩
    obtain ⟨target, -, htarget⟩ := forall₂_exists_right htargets hmem
    exact (exists_target_iff (mem_emitted.mp hmem).1).mp ⟨target, htarget⟩
  · intro hsuits
    obtain ⟨targets, htargets⟩ := exists_forall₂ fun c hmem =>
      (exists_target_iff (mem_emitted.mp hmem).1).mpr (hsuits.destination c hmem)
    exact ⟨_, hsuits.space, ⟨hsuits.supported, hsuits.inputs, hsuits.available⟩, targets,
      htargets, rfl⟩

theorem passes_of_target {target : Target} (htarget : h.target u c = .ok target) :
    h.Passes u c target.argument := by
  rcases target_eq_ok_iff.mp htarget with ⟨d, hd, rfl⟩ | ⟨hnot, type, htype, rfl⟩
  · exact .destination hd
  · have hname : "&" ++ unusedStart = "&G_UNUSED_" := rfl
    rw [Target.argument, hname]
    exact .unused hnot htype

/-- The unused targets have the types of the channels that are not consumed. -/
theorem forall₂_unused {channels : List Channel} {targets : List Target}
    (htargets : List.Forall₂ (fun c target => h.target u c = .ok target) channels targets) :
    List.Forall₂ h.HasType (channels.filter fun c => ¬ u.Consumes c)
      (targets.filterMap Target.unused?) := by
  induction htargets with
  | nil => exact .nil
  | @cons c target channels targets htarget _ ih =>
    rcases target_eq_ok_iff.mp htarget with ⟨d, hd, rfl⟩ | ⟨hnot, type, htype, rfl⟩
    · rw [List.filter_cons_of_neg (by simpa using Usage.consumes_of_destination hd)]
      exact ih
    · rw [List.filter_cons_of_pos (by simpa using hnot)]
      exact .cons htype ih

/-- What is passed for a consumed channel is its destination. -/
theorem Passes.eq_destination {argument : String} (hpasses : h.Passes u c argument)
    (hconsumes : u.Consumes c) :
    ∃ d, u.destination? c = some d ∧ argument = "&" ++ d := by
  cases hpasses with
  | destination hd => exact ⟨_, hd, rfl⟩
  | unused hnot => exact absurd hconsumes hnot

theorem mem_unused_iff {channels : List Channel} {targets : List Target} {type : String}
    (htargets : List.Forall₂ (fun c target => h.target u c = .ok target) channels targets) :
    .unused type ∈ targets ↔ ∃ c ∈ channels, ¬ u.Consumes c ∧ h.HasType c type := by
  constructor
  · intro hmem
    obtain ⟨c, hc, htarget⟩ := forall₂_exists_left htargets hmem
    rcases target_eq_ok_iff.mp htarget with ⟨d, -, heq⟩ | ⟨hnot, other, htype, heq⟩
    · cases heq
    · cases heq
      exact ⟨c, hc, hnot, htype⟩
  · rintro ⟨c, hc, hnot, htype⟩
    obtain ⟨target, hmem, htarget⟩ := forall₂_exists_right htargets hc
    rw [target_eq_ok_iff.mpr (.inr ⟨hnot, type, htype, rfl⟩)] at htarget
    cases htarget
    exact hmem

/-- An emitted channel has one place among the emitted ones, and is no constant of the call. -/
theorem exists_place {outs : List String} (hpasses : List.Forall₂ (h.Passes u) (h.emitted v) outs)
    (hmem : c ∈ h.emitted v) (hconsumes : u.Consumes c) :
    ∃ (d : String) (i : Nat), u.destination? c = some d ∧
      (∀ j, (h.emitted v)[j]? = some c ↔ j = i) ∧ outs[i]? = some ("&" ++ d) ∧
        (h.resolved v u).get? c = none := by
  obtain ⟨i, hi⟩ := List.mem_iff_getElem?.mp hmem
  obtain ⟨argument, hargument, hpass⟩ := forall₂_getElem? hpasses hi
  obtain ⟨d, hd, rfl⟩ := hpass.eq_destination hconsumes
  refine ⟨d, i, hd, fun j => ⟨fun hj => ?_, fun hj => hj ▸ hi⟩, hargument, ?_⟩
  · obtain ⟨hlt, -⟩ := List.getElem?_eq_some_iff.mp hj
    exact (List.getElem?_inj hlt (h.nodup_emitted v)).mp (hj.trans hi.symm)
  · refine Option.eq_none_iff_forall_ne_some.mpr fun x hx => ?_
    have hnone := (mem_emitted.mp hmem).2
    rw [(get?_resolved.mp hx).1] at hnone
    cases hnone

theorem accounts_of_call (hc : h.IsChecked) (hcall : h.call v u space = .ok site) :
    h.Accounts v u site := by
  have hsuits := (exists_call_iff hc).mp ⟨site, hcall⟩
  obtain ⟨-, -, targets, htargets, rfl⟩ := (call_eq_ok_iff hc).mp hcall
  have hpasses : List.Forall₂ (h.Passes u) (h.emitted v) (targets.map Target.argument) := by
    rw [List.forall₂_map_right_iff]
    exact htargets.imp fun c target htarget => passes_of_target htarget
  refine ⟨CallStatement.lines_eq _, rfl, ⟨_, rfl, hpasses⟩, fun c hconsumes => ?_, fun c hmem => ?_,
    fun type => ?_, Target.nodup_unusedTypes _ _, _, forall₂_unused htargets, ?_⟩
  · have hchannel := Signature.mem_channels.mp (hsuits.available c hconsumes)
    -- A channel of the variant is emitted exactly if it is no constant of the header.
    by_cases hmem : c ∈ h.emitted v
    · obtain ⟨d, i, hd, hplace, hargument, hnone⟩ := exists_place hpasses hmem hconsumes
      refine .inl ⟨d, i, hd, hplace, ?_, hnone⟩
      rw [List.getElem?_append_right (Nat.le_add_right _ i), Nat.add_sub_cancel_left, hargument]
    · obtain ⟨x, hx⟩ :=
        Option.ne_none_iff_exists'.mp fun hnone => hmem (mem_emitted.mpr ⟨hchannel, hnone⟩)
      exact .inr ⟨hmem, x, hx, get?_resolved.mpr ⟨hx, hchannel, hconsumes⟩⟩
  · obtain ⟨x, hx⟩ := ChannelMap.contains_iff.mp hmem
    exact (get?_resolved.mp hx).2.2
  · rw [Target.mem_unusedTypes, and_iff_right List.not_mem_nil, mem_unused_iff htargets]
  · rw [Target.unusedTypes_eq, List.filter_eq_self.mpr fun type _ =>
      decide_eq_true List.not_mem_nil]

/-- Inputs, consumed channels and their destinations are a usage, whatever they are. A call is made
for every usage that the header offers, and leaves out no consumed channel. -/
theorem call_accounts (hc : h.IsConstructed) :
    (∀ inputs consumed lookup, ∃ u : Usage, u.Offers inputs consumed lookup) ∧
      ∀ (v : Variant) (u : Usage) (space : Option String),
        ((∃ fault, h.call v u space = .error fault) ↔
          (∃ path, space = some path ∧ ¬ IsQualified path) ∨ ¬ h.supports v ∨
            u.inputs.length ≠ h.inputs.length ∨ (∃ c, u.Consumes c ∧ c ∉ h.channels v) ∨
              ∃ c ∈ h.emitted v, u.Consumes c ∧ u.destination? c = none) ∧
          ∀ site, h.call v u space = .ok site → h.Accounts v u site := by
  refine ⟨Usage.exists_offers, fun v u space => ⟨?_, fun site => accounts_of_call hc.isChecked⟩⟩
  have hfails : (∃ fault, h.call v u space = .error fault) ↔ ¬ h.Suits v u space := by
    rw [← exists_call_iff hc.isChecked]
    cases h.call v u space <;> simp
  rw [hfails]
  constructor
  · intro hnot
    by_contra hnone
    simp only [not_or, not_exists, not_and, not_not, ne_eq] at hnone
    obtain ⟨hspace, hv, hinputs, havailable, hdestination⟩ := hnone
    exact hnot ⟨hspace, hv, hinputs, havailable, fun c hmem hconsumes =>
      Option.ne_none_iff_exists'.mp (hdestination c hmem hconsumes)⟩
  · rintro (⟨path, hpath, hwrong⟩ | hv | hinputs | ⟨c, hconsumes, hnot⟩ | ⟨c, hmem,
      hconsumes, hnone⟩)
      hsuits
    · exact hwrong (hsuits.space path hpath)
    · exact hv hsuits.supported
    · exact hinputs hsuits.inputs
    · exact hnot (hsuits.available c hconsumes)
    · obtain ⟨d, hd⟩ := hsuits.destination c hmem hconsumes
      rw [hd] at hnone
      cases hnone

/-- The first derivative of one output is a constant, and the other channels of that output and of
another are emitted. -/
def sharing : Except Fault Header :=
  ofParts "f" [⟨"double", "x"⟩] [⟨"double", "y"⟩, ⟨"int", "n"⟩] [.plain, ⟨true, false⟩]
    (ChannelMap.empty.insert (.first 0 0) (.nearest true 5 2))

/-- The constant and one emitted channel are consumed, so two channels share a local variable. -/
def sharingUsage : Usage := ((Usage.ofInputs ["a"]).bind (.value 0) "r").require (.first 0 0)

theorem isConstructed_sharing (hh : sharing = .ok h) : h.IsConstructed := .inl ⟨_, _, _, _, _, hh⟩

def sharingLines : List String :=
  ["\x7b", "  int G_UNUSED_int;",
    "  g::fWithFirstOrderDerivatives(a, &r, &G_UNUSED_int, &G_UNUSED_int);", "\x7d"]

theorem exists_sharing : ∃ h, sharing = .ok h := exists_of_isOk (by decide +kernel)

def sharingCall : Except Fault CallStatement :=
  sharing >>= fun h => h.call ⟨true, false⟩ sharingUsage (some "g")

theorem exists_of_sharingCall {α : Type} {f : CallStatement → α} {a : α}
    (hsite : sharingCall.toOption.map f = some a) :
    ∃ h site, sharing = .ok h ∧
      h.call ⟨true, false⟩ sharingUsage (some "g") = .ok site ∧ f site = a := by
  obtain ⟨site, hsite, hf⟩ := Option.map_eq_some_iff.mp hsite
  obtain ⟨h, hh, hcall⟩ := bind_eq_ok.mp (eq_ok_of_toOption hsite)
  exact ⟨h, site, hh, hcall, hf⟩

theorem call_accounts_sharing : ∃ h site, sharing = .ok h ∧
    h.call ⟨true, false⟩ sharingUsage (some "g") = .ok site ∧ site.lines = sharingLines ∧
      site.constants.get? (.first 0 0) = some (.nearest true 5 2) ∧
        h.Accounts ⟨true, false⟩ sharingUsage site := by
  have hsite : sharingCall.toOption.map
      (fun site => (site.lines, site.constants.get? (.first 0 0))) =
        some (sharingLines, some (.nearest true 5 2)) := by decide +kernel
  obtain ⟨h, site, hh, hcall, hparts⟩ := exists_of_sharingCall hsite
  obtain ⟨hlines, hconstant⟩ := Prod.mk.inj hparts
  obtain ⟨-, haccounts⟩ := call_accounts (isConstructed_sharing hh)
  exact ⟨h, site, hh, hcall, hlines, hconstant, (haccounts _ _ _).2 site hcall⟩

end Header

end DerivativeHeaders
