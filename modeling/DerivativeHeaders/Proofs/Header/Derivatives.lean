import DerivativeHeaders.Proofs.Header.Invariant

/-! # Derivatives declared together

Declarations of derivatives are taken in by one ledger exactly when each is in order by itself and
no two contradict each other, in whatever order they stand. The derivatives left out are zero.
-/
namespace DerivativeHeaders

open Outcome Ledger

def Declaration.role (d : Declaration) : Role := d.value.elim .runtime .constant

namespace Signature

variable {s : Signature} {d : Declaration} {ds : List Declaration}
  {said : List Statement} {c : Channel}

/-- A derivative declaration is about the channel that its name is read as. -/
def IsAbout (s : Signature) (d : Declaration) (c : Channel) : Prop :=
  s.channelOfName d.name.value = .ok c

/-- A declaration of a channel is in order by itself. -/
structure Allows (s : Signature) (d : Declaration) (c : Channel) : Prop where
  about : s.IsAbout d c
  /-- The union of the variants computes the channel if it is a derivative. -/
  enabled : 0 < c.order → c.isEnabled s.widest.firstOrder s.widest.secondOrder
  /-- A type is that of the output. -/
  type : ∀ type, d.type = some type → ∃ x, s.outputs[c.output]? = some x ∧ x.type = type.value
  /-- Only a derivative has a value, and a finite one. -/
  value : ∀ x, d.value = some x → 0 < c.order ∧ x.isFinite

/-- Declarations are each in order, and no two contradict each other. -/
structure AllowsAll (s : Signature) (ds : List Declaration) : Prop where
  each : ∀ d ∈ ds, ∃ c, s.Allows d c
  /-- Of one channel, all declarations are bare or all have a value, which is the same in print. -/
  together : ∀ d ∈ ds, ∀ d' ∈ ds, ∀ c, s.IsAbout d c → s.IsAbout d' c →
    (d.value = none ↔ d'.value = none) ∧
      ∀ x x', d.value = some x → d'.value = some x' → x.asPrinted = x'.asPrinted

theorem IsAbout.unique {c' : Channel} (h : s.IsAbout d c) (h' : s.IsAbout d c') : c = c' :=
  Except.ok.inj (h.symm.trans h')

theorem rounded_role_eq_iff {d d' : Declaration} : d.role.rounded = d'.role.rounded ↔
    (d.value = none ↔ d'.value = none) ∧
      ∀ x x', d.value = some x → d'.value = some x' → x.asPrinted = x'.asPrinted := by
  simp only [Declaration.role]
  cases d.value with
  | none => cases d'.value <;> simp [Role.rounded]
  | some x => cases d'.value <;> simp [Role.rounded]

/-- An allowed declaration is read, and gives its channel the role that it says. -/
theorem declares_of_allows (h : s.Allows d c) : s.Declares d (c, d.role) := by
  refine ⟨h.about, fun horder => ?_,
    fun type htype => channelType_eq_ok_iff.mpr (h.type type htype), rfl⟩
  have hread := Channel.fits_of_ofName h.about
  simp only [inputNames, outputNames, List.length_map] at hread
  simp only [hasChannel, Bool.and_eq_true]
  exact ⟨hread, h.enabled horder⟩

theorem mem_said_of_declares (h : List.Forall₂ s.Declares ds said) {m : Statement} :
    m ∈ said ↔ ∃ d ∈ ds, s.IsAbout d m.1 ∧ m.2 = d.role := by
  constructor
  · intro hm
    obtain ⟨d, hd, hdeclares⟩ := forall₂_exists_left h hm
    exact ⟨d, hd, hdeclares.name, hdeclares.role⟩
  · rintro ⟨d, hd, habout, hrole⟩
    obtain ⟨m', hm', hdeclares⟩ := forall₂_exists_right h hd
    have hsame : m = m' :=
      Prod.ext (habout.unique hdeclares.name) (hrole.trans hdeclares.role.symm)
    rwa [hsame]

/-- Declarations are taken in together exactly when those of one channel agree. -/
theorem exists_declared_iff (h : List.Forall₂ s.Declares ds said) :
    (∃ declared, Ledger.empty.recordAll s said = .ok declared) ↔
      ∀ d ∈ ds, ∀ d' ∈ ds, ∀ c, s.IsAbout d c → s.IsAbout d' c →
      d.role.rounded = d'.role.rounded := by
  rw [exists_recordAll_iff]
  constructor
  · intro hagree d hd d' hd' c hc hc'
    exact hagree (c, d.role) ((mem_said_of_declares h).mpr ⟨d, hd, hc, rfl⟩) (c, d'.role)
      ((mem_said_of_declares h).mpr ⟨d', hd', hc', rfl⟩) rfl
  · intro hagree m hm m' hm' hchannel
    obtain ⟨d, hd, hc, hrole⟩ := (mem_said_of_declares h).mp hm
    obtain ⟨d', hd', hc', hrole'⟩ := (mem_said_of_declares h).mp hm'
    rw [hrole, hrole']
    exact hagree d hd d' hd' m.1 hc (hchannel ▸ hc')

/-- What the ledger of declarations holds once the zeros are added. -/
inductive Holds (s : Signature) (ds : List Declaration) (c : Channel) : Role → Prop
  | said {d : Declaration} (hd : d ∈ ds) (habout : s.IsAbout d c) : Holds s ds c d.role.rounded
  | zero (hc : 0 < c.order ∧ s.hasChannel s.widest c) (hnone : ∀ d ∈ ds, ¬ s.IsAbout d c) :
    Holds s ds c (.constant .zero)

variable {declared l : Ledger}

theorem contains_declared_iff (h : List.Forall₂ s.Declares ds said)
    (hdeclared : Ledger.empty.recordAll s said = .ok declared) :
    declared.contains c ↔ ∃ d ∈ ds, s.IsAbout d c := by
  simp only [Ledger.contains_iff, recordAll_eq_ok_iff.mp hdeclared]
  constructor
  · rintro ⟨role, hempty | ⟨m, hm, rfl, -⟩⟩
    · cases hempty
    · obtain ⟨d, hd, habout, -⟩ := (mem_said_of_declares h).mp hm
      exact ⟨d, hd, habout⟩
  · rintro ⟨d, hd, habout⟩
    exact ⟨d.role.rounded, .inr ⟨(c, d.role),
      (mem_said_of_declares h).mpr ⟨d, hd, habout, rfl⟩, rfl, rfl⟩⟩

theorem mem_undeclared_iff (h : List.Forall₂ s.Declares ds said)
    (hdeclared : Ledger.empty.recordAll s said = .ok declared) {m : Statement} :
    m ∈ s.undeclared declared ↔
      (0 < m.1.order ∧ s.hasChannel s.widest m.1) ∧ (∀ d ∈ ds, ¬ s.IsAbout d m.1) ∧
      m.2 = .constant .zero := by
  have hnot : declared.contains m.1 = false ↔ ∀ d ∈ ds, ¬ s.IsAbout d m.1 := by
    rw [← Bool.not_eq_true, contains_declared_iff h hdeclared]
    simp
  rw [mem_undeclared, hnot, derivatives, List.mem_filter, mem_channels, decide_eq_true_eq,
    and_assoc, @and_comm (_ = true)]

theorem entered_iff_holds (h : List.Forall₂ s.Declares ds said)
    (hdeclared : Ledger.empty.recordAll s said = .ok declared) {role : Role} :
    Entered (said ++ s.undeclared declared) c role ↔ s.Holds ds c role := by
  have hzero : (Role.constant .zero).rounded = .constant .zero := by
    rw [Role.rounded, Binary64.asPrinted_zero]
  constructor
  · rintro ⟨m, hm, rfl, rfl⟩
    rcases List.mem_append.mp hm with hm | hm
    · obtain ⟨d, hd, habout, hrole⟩ := (mem_said_of_declares h).mp hm
      rw [hrole]
      exact .said hd habout
    · obtain ⟨hc, hnone, hrole⟩ := (mem_undeclared_iff h hdeclared).mp hm
      rw [hrole, hzero]
      exact .zero hc hnone
  · intro hholds
    cases hholds with
    | @said d hd habout =>
      exact ⟨(c, d.role),
        List.mem_append_left _ ((mem_said_of_declares h).mpr ⟨d, hd, habout, rfl⟩), rfl, rfl⟩
    | zero hc hnone =>
      exact ⟨(c, .constant .zero),
        List.mem_append_right _ ((mem_undeclared_iff h hdeclared).mpr ⟨hc, hnone, rfl⟩), rfl, hzero⟩

/-- The zeros contradict nothing that was declared. -/
theorem exists_completed (h : List.Forall₂ s.Declares ds said)
    (hdeclared : Ledger.empty.recordAll s said = .ok declared) :
    ∃ l, declared.recordAll s (s.undeclared declared) = .ok l := by
  have hall : ∃ l, Ledger.empty.recordAll s (said ++ s.undeclared declared) = .ok l := by
    rw [exists_recordAll_iff]
    have hagree := exists_recordAll_iff.mp ⟨declared, hdeclared⟩
    -- A zero is only added for a channel that no declaration is about.
    have hapart : ∀ m ∈ said, ∀ m' ∈ s.undeclared declared, m.1 ≠ m'.1 := by
      intro m hm m' hm' hchannel
      obtain ⟨d, hd, habout, -⟩ := (mem_said_of_declares h).mp hm
      obtain ⟨-, hnone, -⟩ := (mem_undeclared_iff h hdeclared).mp hm'
      exact hnone d hd (hchannel ▸ habout)
    intro m hm m' hm' hchannel
    rcases List.mem_append.mp hm with hm | hm <;> rcases List.mem_append.mp hm' with hm' | hm'
    · exact hagree m hm m' hm' hchannel
    · exact absurd hchannel (hapart m hm m' hm')
    · exact absurd hchannel.symm (hapart m' hm' m hm)
    · rw [((mem_undeclared_iff h hdeclared).mp hm).2.2,
        ((mem_undeclared_iff h hdeclared).mp hm').2.2]
  obtain ⟨l, hl⟩ := hall
  rw [recordAll_append, hdeclared] at hl
  exact ⟨l, hl⟩

/-- The ledger after the declarations, with the zeros added. -/
structure Completes (s : Signature) (ds : List Declaration) (l : Ledger) : Prop where
  each : ∀ d ∈ ds, ∃ c, s.Declares d (c, d.role)
  agree : ∀ d ∈ ds, ∀ d' ∈ ds, ∀ c, s.IsAbout d c → s.IsAbout d' c →
    d.role.rounded = d'.role.rounded
  roles : ∀ c role, l.roles.get? c = some role ↔ s.Holds ds c role

theorem roles_iff_holds (h : List.Forall₂ s.Declares ds said)
    (hdeclared : Ledger.empty.recordAll s said = .ok declared)
    (hl : declared.recordAll s (s.undeclared declared) = .ok l) (c : Channel) (role : Role) :
    l.roles.get? c = some role ↔ s.Holds ds c role := by
  have hall : Ledger.empty.recordAll s (said ++ s.undeclared declared) = .ok l := by
    rw [recordAll_append, hdeclared]
    exact hl
  rw [recordAll_eq_ok_iff.mp hall, entered_iff_holds h hdeclared]
  exact or_iff_right nofun

/-- Declarations that are each read and that agree are taken in, and the zeros after them. -/
theorem exists_completes (heach : ∀ d ∈ ds, ∃ c, s.Declares d (c, d.role))
    (hagree : ∀ d ∈ ds, ∀ d' ∈ ds, ∀ c, s.IsAbout d c → s.IsAbout d' c →
      d.role.rounded = d'.role.rounded) :
    ∃ declared l, ds.foldlM s.declare .empty = .ok declared ∧
      declared.recordAll s (s.undeclared declared) = .ok l ∧ s.Completes ds l := by
  have hexists : ∀ d ∈ ds, ∃ m, s.Declares d m := by
    intro d hd
    obtain ⟨c, hc⟩ := heach d hd
    exact ⟨_, hc⟩
  obtain ⟨said, hsaid⟩ := exists_forall₂ hexists
  obtain ⟨declared, hdeclared⟩ := (exists_declared_iff hsaid).mpr hagree
  obtain ⟨l, hl⟩ := exists_completed hsaid hdeclared
  exact ⟨declared, l, foldlM_declare_eq_ok_iff.mpr ⟨said, hsaid, hdeclared⟩, hl, heach, hagree,
    roles_iff_holds hsaid hdeclared hl⟩

theorem completes_of_declare (hdeclared : ds.foldlM s.declare .empty = .ok declared)
    (hl : declared.recordAll s (s.undeclared declared) = .ok l) : s.Completes ds l := by
  obtain ⟨said, hsaid, hdeclared⟩ := foldlM_declare_eq_ok_iff.mp hdeclared
  refine ⟨fun d hd => ?_, (exists_declared_iff hsaid).mp ⟨declared, hdeclared⟩,
    roles_iff_holds hsaid hdeclared hl⟩
  obtain ⟨m, -, hm⟩ := forall₂_exists_right hsaid hd
  have hpair : m = (m.1, d.role) := Prod.ext rfl hm.role
  exact ⟨m.1, hpair ▸ hm⟩

namespace Completes

/-- A ledger of declarations is the only one. -/
theorem unique {l' : Ledger} (h : s.Completes ds l) (h' : s.Completes ds l') : l = l' := by
  apply Ledger.ext
  intro c
  ext role
  rw [h.roles, h'.roles]

theorem constants_iff (h : s.Completes ds l) {x : Binary64} : l.constants.get? c = some x ↔
    (∃ d ∈ ds, s.IsAbout d c ∧ ∃ y, d.value = some y ∧ y.asPrinted = x) ∨
      (0 < c.order ∧ s.hasChannel s.widest c) ∧ (∀ d ∈ ds, ¬ s.IsAbout d c) ∧ x = .zero := by
  rw [get?_constants_eq_some_iff, h.roles]
  constructor
  · intro hholds
    generalize hrole : Role.constant x = role at hholds
    cases hholds with
    | @said d hd habout =>
      refine .inl ⟨d, hd, habout, ?_⟩
      cases hvalue : d.value with
      | none => simp [Declaration.role, hvalue, Role.rounded] at hrole
      | some y => simpa [Declaration.role, hvalue, Role.rounded, eq_comm] using hrole
    | zero hc hnone => exact .inr ⟨hc, hnone, Role.constant.inj hrole⟩
  · rintro (⟨d, hd, habout, y, hvalue, rfl⟩ | ⟨hc, hnone, rfl⟩)
    · have hrole : d.role.rounded = .constant y.asPrinted := by
        simp [Declaration.role, hvalue, Role.rounded]
      exact hrole ▸ .said hd habout
    · exact .zero hc hnone

/-- A derivative is not constant exactly when some declaration of it has no value. -/
theorem constants_eq_none_iff (h : s.Completes ds l) (hc : 0 < c.order ∧ s.hasChannel s.widest c) :
    l.constants.get? c = none ↔ ∃ d ∈ ds, s.IsAbout d c ∧ d.value = none := by
  constructor
  · intro hnone
    by_cases hmention : ∃ d ∈ ds, s.IsAbout d c
    · obtain ⟨d, hd, habout⟩ := hmention
      refine ⟨d, hd, habout, Option.eq_none_iff_forall_ne_some.mpr fun y hy => ?_⟩
      rw [h.constants_iff.mpr (.inl ⟨d, hd, habout, y, hy, rfl⟩)] at hnone
      cases hnone
    · rw [h.constants_iff.mpr
        (.inr ⟨hc, fun d hd habout => hmention ⟨d, hd, habout⟩, rfl⟩)] at hnone
      cases hnone
  · rintro ⟨d, hd, habout, hbare⟩
    refine Option.eq_none_iff_forall_ne_some.mpr fun y hy => ?_
    rcases h.constants_iff.mp hy with ⟨d', hd', habout', z, hz, -⟩ | ⟨-, hnone, -⟩
    · have hsame := (rounded_role_eq_iff.mp (h.agree d hd d' hd' c habout habout')).1
      rw [hsame.mp hbare] at hz
      cases hz
    · exact hnone d hd habout

/-- The constants pass their checks exactly when every value stands on a derivative and is
finite. -/
theorem checked_iff (h : s.Completes ds l) :
    (∀ c x, l.constants.get? c = some x → 0 < c.order ∧ s.hasChannel s.widest c ∧ x.isFinite) ↔
      ∀ d ∈ ds, ∀ c, s.IsAbout d c → ∀ x, d.value = some x → 0 < c.order ∧ x.isFinite := by
  constructor
  · intro hchecked d hd c habout x hvalue
    obtain ⟨horder, -, hfinite⟩ :=
      hchecked c _ (h.constants_iff.mpr (.inl ⟨d, hd, habout, x, hvalue, rfl⟩))
    rw [Binary64.isFinite_asPrinted] at hfinite
    exact ⟨horder, hfinite⟩
  · intro hvalues c x hx
    rcases h.constants_iff.mp hx with ⟨d, hd, habout, y, hvalue, rfl⟩ | ⟨⟨horder, hchannel⟩, -, rfl⟩
    · obtain ⟨horder, hfinite⟩ := hvalues d hd c habout y hvalue
      obtain ⟨c', hdeclares⟩ := h.each d hd
      have hc : c = c' := habout.unique hdeclares.name
      rw [Binary64.isFinite_asPrinted]
      exact ⟨horder, hc ▸ hdeclares.variants (hc ▸ horder), hfinite⟩
    · exact ⟨horder, hchannel, rfl⟩

end Completes

/-- Declarations are allowed exactly when they are taken in and their constants pass the checks. -/
theorem allowsAll_iff : s.AllowsAll ds ↔ ∃ l, s.Completes ds l ∧
    ∀ c x, l.constants.get? c = some x → 0 < c.order ∧ s.hasChannel s.widest c ∧ x.isFinite := by
  constructor
  · rintro ⟨heach, htogether⟩
    have hdeclares : ∀ d ∈ ds, ∃ c, s.Declares d (c, d.role) := by
      intro d hd
      obtain ⟨c, hc⟩ := heach d hd
      exact ⟨c, declares_of_allows hc⟩
    have hagree : ∀ d ∈ ds, ∀ d' ∈ ds, ∀ c, s.IsAbout d c → s.IsAbout d' c →
        d.role.rounded = d'.role.rounded :=
      fun d hd d' hd' c hc hc' => rounded_role_eq_iff.mpr (htogether d hd d' hd' c hc hc')
    obtain ⟨-, l, -, -, hl⟩ := exists_completes hdeclares hagree
    refine ⟨l, hl, hl.checked_iff.mpr fun d hd c habout x hvalue => ?_⟩
    obtain ⟨c', hc'⟩ := heach d hd
    rw [habout.unique hc'.about]
    exact hc'.value x hvalue
  · rintro ⟨l, hl, hchecked⟩
    refine ⟨fun d hd => ?_,
      fun d hd d' hd' c hc hc' => rounded_role_eq_iff.mp (hl.agree d hd d' hd' c hc hc')⟩
    obtain ⟨c, hdeclares⟩ := hl.each d hd
    refine ⟨c, hdeclares.name, fun horder => ?_, fun type htype => ?_,
      hl.checked_iff.mp hchecked d hd c hdeclares.name⟩
    · have hchannel := hdeclares.variants horder
      simp only [hasChannel, Bool.and_eq_true] at hchannel
      exact hchannel.2
    · exact channelType_eq_ok_iff.mp (hdeclares.type type htype)

end Signature

end DerivativeHeaders
