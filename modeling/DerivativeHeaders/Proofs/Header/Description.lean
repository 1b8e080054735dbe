import DerivativeHeaders.Proofs.Declaration
import DerivativeHeaders.Proofs.Header.RoundTrip

/-! # Descriptions read back

The description of a header builds the header: its declarations are read as the variables and the
derivatives other than zero, and what it leaves out is zero.
-/
namespace DerivativeHeaders

open Outcome Ledger

namespace Variant

theorem exists_shortName {v : Variant} (h : v.position?.isSome) :
    ∃ name, v.shortName? = some name ∧ ofShortName? name = some v := by
  revert h
  obtain ⟨_ | _, _ | _⟩ := v
  · exact fun _ => ⟨"d0", rfl, rfl⟩
  · nofun
  · exact fun _ => ⟨"d1", rfl, rfl⟩
  · exact fun _ => ⟨"d2", rfl, rfl⟩

theorem ofShortNames_shortNames {vs : List Variant} (h : ∀ v ∈ vs, v.position?.isSome) :
    ∃ names, shortNames vs = .ok names ∧ ofShortNames names = .ok vs := by
  induction vs with
  | nil => exact ⟨[], rfl, rfl⟩
  | cons v vs ih =>
    obtain ⟨name, hname, hread⟩ := exists_shortName (h v List.mem_cons_self)
    obtain ⟨names, hnames, hreads⟩ := ih fun w hw => h w (List.mem_cons_of_mem _ hw)
    rw [shortNames] at hnames
    rw [ofShortNames] at hreads
    refine ⟨name :: names, ?_, ?_⟩
    · simp only [shortNames, List.mapM_cons, hname, hnames]
      rfl
    · simp only [ofShortNames, List.mapM_cons, hread, hreads]
      rfl

end Variant

namespace Variable

def content (x : Variable) : Declaration.Content := ⟨some x.type, x.name, none⟩

theorem toVariable_of_content {what source : String} {d : Declaration} {x : Variable}
    (h : d.content = x.content) :
    Declaration.toVariable what source d = .ok x := by
  obtain ⟨htype, hname, hvalue⟩ := Declaration.Content.mk.inj h
  obtain ⟨t, ht, hx⟩ := Option.map_eq_some_iff.mp htype
  refine Declaration.toVariable_eq_ok_iff.mpr ⟨hvalue, ?_⟩
  rw [Declaration.declared?, ht, Option.map_some, hx, hname]

theorem ofSource_variablesText {xs : List Variable} (h : ∀ x ∈ xs, IsWord x.type ∧ IsWord x.name)
    (what : String) :
    ofSource what (Header.variablesText xs) = .ok xs := by
  have hlexes : List.Forall₂ (fun text x => Lexes text.toList (Declaration.Content.tokens x))
      (xs.map fun x => x.type ++ " " ++ x.name) (xs.map content) := by
    rw [List.forall₂_map_left_iff, List.forall₂_map_right_iff]
    exact List.forall₂_same.mpr fun x hx => Header.lexes_typed (h x hx).1 (h x hx).2
  obtain ⟨ds, hds, hcontents⟩ :=
    Declaration.isListOf_of_lexes (Declaration.lexes_intercalate hlexes)
  have hforall : List.Forall₂
      (fun d x => Declaration.toVariable what (Header.variablesText xs) d = .ok x) ds xs := by
    have hmap : List.Forall₂ (fun d x => d.content = content x) ds xs := by
      rw [← List.forall₂_map_right_iff (f := content), ← hcontents, List.forall₂_map_right_iff]
      exact List.forall₂_same.mpr fun d _ => rfl
    exact hmap.imp fun d x hx => toVariable_of_content hx
  rw [ofSource, Header.variablesText, Declaration.ofSource_eq_ok_iff.mpr hds]
  exact mapM_eq_ok_iff.mpr hforall

theorem avoidsKeywords_of_ofSource {what source : String} {xs : List Variable}
    (h : ofSource what source = .ok xs) :
    ∀ x ∈ xs, x.AvoidsKeywords := by
  intro x hx
  obtain ⟨ds, hds, -, rfl⟩ := ofSource_eq_ok_iff.mp h
  obtain ⟨d, hd, hdeclared⟩ := List.mem_filterMap.mp hx
  obtain ⟨type, htype, rfl⟩ := Option.map_eq_some_iff.mp hdeclared
  have hwords := Declaration.avoidsKeywords_of_isListOf hds d hd
  exact ⟨hwords.2 type htype, hwords.1⟩

end Variable

namespace Header

variable {h : Header} {c : Channel}

theorem avoidsKeywords_of_ofDescription {d : Description} (hd : ofDescription d = .ok h) :
    h.AvoidsKeywords := by
  obtain ⟨inputs, outputs, variants, ds, declared, l, hinputs, houtputs, -, hs, -⟩ :=
    ofDescription_eq_ok_iff.mp hd
  obtain ⟨vs, -, hsignature, -⟩ := Signature.ofParts_eq_ok_iff.mp hs
  rw [Signature.AvoidsKeywords, hsignature]
  intro x hx
  rcases List.mem_append.mp hx with hx | hx
  · exact Variable.avoidsKeywords_of_ofSource hinputs x hx
  · exact Variable.avoidsKeywords_of_ofSource houtputs x hx

theorem name_of_ofDescription {d : Description} (hd : ofDescription d = .ok h) :
    h.name = d.name := by
  obtain ⟨inputs, outputs, variants, ds, declared, l, -, -, -, hs, -⟩ :=
    ofDescription_eq_ok_iff.mp hd
  obtain ⟨vs, -, hsignature, -⟩ := Signature.ofParts_eq_ok_iff.mp hs
  exact congrArg Signature.name hsignature

/-- The number of a kept constant is read as the constant. -/
theorem lexes_description {x : Binary64} (hfinite : x.isFinite) :
    Lexes (NumberStyle.description.text x).toList [.number x] := by
  obtain ⟨negative, m, rfl⟩ := Binary64.exists_eq_finite hfinite
  obtain ⟨n, hscan, hvalue⟩ := (NumberStyle.spells_text .description negative m).scan
  rw [Magnitude.nearest_shortest] at hvalue
  have hlexes := Lexes.number hscan
  rwa [hvalue] at hlexes

theorem lexes_valued {name : String} (hname : IsWord name) {x : Binary64} (hfinite : x.isFinite) :
    Lexes (name ++ " = " ++ NumberStyle.description.text x).toList
      [.word name, .mark .equals, .number x] := by
  have hequals :
      Lexes (" = ".toList ++ (NumberStyle.description.text x).toList) [.mark .equals, .number x] :=
    Lexes.space (Lexes.cons rfl rfl (lexes_description hfinite).space)
  simp only [String.toList_append, List.append_assoc]
  exact hname.lexes_append (stopsWord_cons (by decide)) hequals

/-- A derivative is declared with its role, unless it is the constant zero. -/
theorem declaration_cases (hc : h.IsChecked) (hw : h.AvoidsKeywords)
    (hchannel : h.hasChannel h.widest c) :
    (h.role c = .constant .zero ∧ h.declaration c = .ok none) ∨
      ∃ text x, h.declaration c = .ok (some text) ∧
        Lexes text.toList (Declaration.Content.tokens x) ∧ ∀ d : Declaration, d.content = x →
        h.Declares d (c, h.role c) := by
  obtain ⟨-, name, -, hname, -, hword⟩ := exists_words hc hw hchannel
  have hread := hc.channelOfName_channelName hchannel hname
  have hdeclares (value : Option Binary64) (hrole : h.role c = value.elim .runtime .constant)
      (d : Declaration)
      (hd : d.content = ⟨none, name, value⟩) : h.Declares d (c, h.role c) := by
    obtain ⟨htype, rfl, rfl⟩ := Declaration.Content.mk.inj hd
    refine ⟨hread, fun _ => hchannel, fun type ht => ?_, hrole⟩
    rw [ht] at htype
    cases htype
  cases hget : h.constants.get? c with
  | none =>
    refine .inr ⟨name, ⟨none, name, none⟩, ?_, hword.lexes,
      hdeclares none (role_eq_runtime_iff.mpr hget)⟩
    rw [declaration, hname]
    simp only [hget]
    rfl
  | some x =>
    obtain ⟨hfinite, -, hkept⟩ := hc.values c x hget
    cases hzero : x.isZero with
    | true =>
      refine .inl ⟨?_, ?_⟩
      · rw [role_eq_constant_iff, hget, Binary64.eq_zero_of_isZero hkept hzero]
      · rw [declaration, hname]
        simp only [bind, Except.bind, hget, hzero]
        rfl
    | false =>
      refine .inr ⟨name ++ " = " ++ NumberStyle.description.text x, ⟨none, name, some x⟩, ?_,
        lexes_valued hword hfinite, hdeclares (some x) (role_eq_constant_iff.mpr hget)⟩
      rw [declaration, hname]
      simp only [bind, Except.bind, hget, hzero]
      rfl

/-- The declarations of channels say what the header holds, and leave out nothing but zeros. -/
theorem exists_declarations (hc : h.IsChecked) (hw : h.AvoidsKeywords) {channels : List Channel}
    (hchannels : ∀ c ∈ channels, h.hasChannel h.widest c) : ∃ texts contents said,
      channels.mapM h.declaration = .ok texts ∧
      List.Forall₂ (fun text x => Lexes text.toList (Declaration.Content.tokens x))
        (texts.filterMap id) contents ∧
      List.Forall₂ (fun x m => ∀ d : Declaration, d.content = x → h.Declares d m) contents said ∧
      (∀ m ∈ said, m.2 = h.role m.1) ∧
      ∀ c ∈ channels, c ∈ said.map Prod.fst ∨ h.role c = .constant .zero := by
  induction channels with
  | nil => exact ⟨[], [], [], rfl, .nil, .nil, by simp, by simp⟩
  | cons c channels ih =>
    obtain ⟨hchannel, hrest⟩ := List.forall_mem_cons.mp hchannels
    obtain ⟨texts, contents, said, htexts, hlexes, hdeclares, hsaid, hzeros⟩ := ih hrest
    rcases declaration_cases hc hw hchannel with
      ⟨hzero, hdeclaration⟩ | ⟨text, x, hdeclaration, hx, hd⟩
    · refine ⟨none :: texts, contents, said, ?_, hlexes, hdeclares, hsaid,
        List.forall_mem_cons.mpr ⟨.inr hzero, hzeros⟩⟩
      rw [List.mapM_cons, hdeclaration, htexts]
      rfl
    · refine ⟨some text :: texts, x :: contents, (c, h.role c) :: said,
        ?_, .cons hx hlexes, .cons hd hdeclares,
        List.forall_mem_cons.mpr ⟨rfl, hsaid⟩,
        List.forall_mem_cons.mpr ⟨.inl List.mem_cons_self, ?_⟩⟩
      · rw [List.mapM_cons, hdeclaration, htexts]
        rfl
      · exact fun d hmem => (hzeros d hmem).imp_left (List.mem_cons_of_mem _)

theorem forall₂_declares {contents : List Declaration.Content} {said : List Statement}
    {ds : List Declaration}
    (hsaid : List.Forall₂ (fun x m => ∀ d : Declaration, d.content = x → h.Declares d m)
      contents said)
    (hds : ds.map Declaration.content = contents) : List.Forall₂ h.Declares ds said := by
  have hmap : List.Forall₂ (fun d x => Declaration.content d = x) ds contents := by
    rw [← hds, List.forall₂_map_right_iff]
    exact List.forall₂_same.mpr fun d _ => rfl
  exact forall₂_comp (fun d x m hd hx => hx d hd) hmap hsaid

/-- Declarations that leave out nothing but zeros give the ledger of the header, once the zeros are
added. -/
theorem exists_ledger (hc : h.IsChecked) {said : List Statement}
    (hroles : ∀ m ∈ said, m.2 = h.role m.1)
    (hzeros : ∀ c ∈ h.derivatives, c ∈ said.map Prod.fst ∨ h.role c = .constant .zero) :
    ∃ declared l, Ledger.empty.recordAll h.toSignature said = .ok declared ∧
      declared.recordAll h.toSignature (h.undeclared declared) = .ok l ∧
      l.constants = h.constants := by
  have hrounded : ∀ m ∈ said, m.2.rounded = h.role m.1 := by
    intro m hm
    rw [hroles m hm, rounded_role hc]
  obtain ⟨declared, hdeclared, hfollows, hcontains⟩ :=
    recordAll_follows (follows_empty h.role) hrounded
  have hundeclared : ∀ m ∈ h.undeclared declared, m.2.rounded = h.role m.1 := by
    intro m hm
    obtain ⟨⟨hderivative, hnot⟩, hconstant⟩ := Signature.mem_undeclared.mp hm
    have hzero : h.role m.1 = .constant .zero := by
      refine (hzeros m.1 hderivative).resolve_left fun hsaid => ?_
      rw [(hcontains m.1).mpr (.inr hsaid)] at hnot
      cases hnot
    rw [hzero, hconstant, Role.rounded, Binary64.asPrinted_zero]
  obtain ⟨l, hl, hfollows, hcontains'⟩ := recordAll_follows hfollows hundeclared
  refine ⟨declared, l, hdeclared, hl, constants_of_follows hc hfollows fun c hchannel horder =>
    (hcontains' c).mpr ?_⟩
  cases hmem : declared.contains c with
  | true => exact .inl rfl
  | false =>
    refine .inr (List.mem_map.mpr ⟨(c, .constant .zero), ?_, rfl⟩)
    exact Signature.mem_undeclared.mpr ⟨⟨mem_derivatives.mpr ⟨hchannel, horder⟩, hmem⟩, rfl⟩

theorem IsChecked.exists_description (hc : h.IsChecked) (hw : h.AvoidsKeywords) :
    ∃ d, h.toDescription = .ok d ∧ ofDescription d = .ok h := by
  obtain ⟨texts, contents, said, htexts, hlexes, hdeclares, hroles, hzeros⟩ :=
    exists_declarations hc hw fun c hmem => (mem_derivatives.mp hmem).1
  obtain ⟨names, hnames, hvariants⟩ := Variant.ofShortNames_shortNames hc.ordered.registered
  obtain ⟨ds, hds, hcontents⟩ :=
    Declaration.isListOf_of_lexes (Declaration.lexes_intercalate hlexes)
  obtain ⟨declared, l, hdeclared, hl, hconstants⟩ := exists_ledger hc hroles hzeros
  have hwords : ∀ x ∈ h.inputs ++ h.outputs, IsWord x.type ∧ IsWord x.name :=
    fun x hx => ⟨isWord_type hc hw hx, isWord_name hc hw hx⟩
  refine ⟨⟨h.name, variablesText h.inputs, variablesText h.outputs,
    ", ".intercalate (texts.filterMap id), names⟩, ?_, ?_⟩
  · rw [toDescription, htexts, hnames]
    rfl
  · refine ofDescription_eq_ok_iff.mpr ⟨h.inputs, h.outputs, h.variants, ds, declared, l, ?_, ?_,
      hvariants, hc.toIsChecked.ofParts_eq, ?_, ?_, hl, ?_⟩
    · exact Variable.ofSource_variablesText (fun x hx => hwords x (List.mem_append_left _ hx)) _
    · exact Variable.ofSource_variablesText (fun x hx => hwords x (List.mem_append_right _ hx)) _
    · exact Declaration.ofSource_eq_ok_iff.mpr hds
    · exact Signature.foldlM_declare_eq_ok_iff.mpr
        ⟨said, forall₂_declares hdeclares hcontents, hdeclared⟩
    · rw [hconstants]
      exact hc.ofSignature_eq

/-- A constructed header is built from its description again. Only one that was put together from
parts can have a keyword for a type or a name of a variable. -/
theorem ofDescription_toDescription
    (hc : h.FromDescription ∨ h.FromText ∨ h.FromParts ∧ h.AvoidsKeywords) :
    ∃ d, h.toDescription = .ok d ∧ ofDescription d = .ok h := by
  rcases hc with ⟨d, hd⟩ | ⟨text, htext⟩ | ⟨hparts, hw⟩
  · exact (isChecked_ofDescription hd).exists_description (avoidsKeywords_of_ofDescription hd)
  · exact (isChecked_ofText htext).exists_description (avoidsKeywords_of_ofText htext).2
  · exact (IsConstructed.isChecked (.inl hparts)).exists_description hw

theorem ofDescription_toDescription_linear :
    ∃ h : Header, ofParts "f" [⟨"double", "x"⟩] [⟨"double", "y"⟩]
      [⟨true, false⟩, .plain] (ChannelMap.empty.insert (.first 0 0) (.nearest true 5 2)) = .ok h ∧
    ∃ d, h.toDescription = .ok d ∧ ofDescription d = .ok h := by
  obtain ⟨h, hh⟩ := exists_linear
  have hw := avoidsKeywords_of_ofParts hh linear_avoidsKeywords
  exact ⟨h, hh, ofDescription_toDescription (.inr (.inr ⟨⟨_, _, _, _, _, hh⟩, hw⟩))⟩

end Header

end DerivativeHeaders
