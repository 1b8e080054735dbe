import DerivativeHeaders.Header.Description
import DerivativeHeaders.Proofs.Declaration.Grammar
import DerivativeHeaders.Proofs.Ledger
import DerivativeHeaders.Proofs.Signature

/-! # What a description declares

A list of variables declares each with a type and without a value. A declared derivative is written
or constant, and a derivative that is not declared is zero.
-/
namespace DerivativeHeaders

open Outcome Ledger

namespace Declaration

/-- The variable that a declaration with a type stands for. -/
def declared? (d : Declaration) : Option Variable :=
  d.type.map fun type => ⟨type.value, d.name.value⟩

theorem ofSource_eq_ok_iff {what source : String} {ds : List Declaration} :
    ofSource what source = .ok ds ↔ IsListOf source.toList ds := by
  rw [← readList_eq_ok_iff, ofSource]
  cases readList source.toList <;> simp [complain]

theorem toVariable_eq_ok_iff {what source : String} {d : Declaration} {x : Variable} :
    toVariable what source d = .ok x ↔ d.value = none ∧ d.declared? = some x := by
  rw [toVariable, declared?]
  cases d.value with
  | some y => simp [complain]
  | none => cases d.type <;> simp [complain]

/-- Every declaration of a list stands for a variable when each has a type and none a value. -/
theorem forall₂_declared_iff {ds : List Declaration} {xs : List Variable} :
    List.Forall₂ (fun d x => d.value = none ∧ d.declared? = some x) ds xs ↔
      (∀ d ∈ ds, d.type.isSome ∧ d.value = none) ∧ xs = ds.filterMap declared? := by
  induction ds generalizing xs with
  | nil => simp
  | cons d ds ih =>
    rw [List.forall₂_cons_left_iff, List.forall_mem_cons]
    cases htype : d.type with
    | none => simp [declared?, htype]
    | some type =>
      have hd : d.declared? = some ⟨type.value, d.name.value⟩ := by
        rw [declared?, htype, Option.map_some]
      simp only [hd, ih, List.filterMap_cons_some hd, Option.isSome_some, true_and,
        Option.some.injEq]
      constructor
      · rintro ⟨x, xs, ⟨hvalue, rfl⟩, ⟨hall, rfl⟩, rfl⟩
        exact ⟨⟨hvalue, hall⟩, rfl⟩
      · rintro ⟨⟨hvalue, hall⟩, rfl⟩
        exact ⟨_, _, ⟨hvalue, rfl⟩, ⟨hall, rfl⟩, rfl⟩

theorem map_name_declared {ds : List Declaration} (h : ∀ d ∈ ds, d.type.isSome) :
    (ds.filterMap declared?).map Variable.name = ds.map fun d => d.name.value := by
  induction ds with
  | nil => rfl
  | cons d ds ih =>
    obtain ⟨type, htype⟩ := Option.isSome_iff_exists.mp (h d List.mem_cons_self)
    have hd : d.declared? = some ⟨type.value, d.name.value⟩ := by
      rw [declared?, htype, Option.map_some]
    rw [List.filterMap_cons_some hd, List.map_cons, List.map_cons,
      ih fun d' hd' => h d' (List.mem_cons_of_mem _ hd')]

end Declaration

/-- A list of variables is accepted if each has a type and none has a value. -/
theorem Variable.ofSource_eq_ok_iff {what source : String} {xs : List Variable} :
    ofSource what source = .ok xs ↔ ∃ ds, Declaration.IsListOf source.toList ds ∧
      (∀ d ∈ ds, d.type.isSome ∧ d.value = none) ∧
      xs = ds.filterMap Declaration.declared? := by
  simp only [ofSource, bind_eq_ok, mapM_eq_ok_iff, Declaration.ofSource_eq_ok_iff,
    Declaration.toVariable_eq_ok_iff]
  exact exists_congr fun ds => and_congr_right fun _ => Declaration.forall₂_declared_iff

namespace Signature

variable {s : Signature} {l l' : Ledger} {d : Declaration}

/-- What a declaration says about its channel. -/
structure Declares (s : Signature) (d : Declaration) (m : Statement) : Prop where
  name : s.channelOfName d.name.value = .ok m.1
  variants : 0 < m.1.order → s.hasChannel s.widest m.1
  type : ∀ type, d.type = some type → s.channelType m.1 = .ok type.value
  role : m.2 = d.value.elim .runtime .constant

theorem declare_eq_ok_iff :
    s.declare l d = .ok l' ↔ ∃ m, s.Declares d m ∧ l.record s m.1 m.2 = .ok l' := by
  simp only [declare, bind_eq_ok, guard_eq_ok]
  constructor
  · rintro ⟨c, hname, hvariants, h⟩
    have hvariants : 0 < c.order → s.hasChannel s.widest c := by
      intro hc
      simpa [hc] using hvariants
    cases htype : d.type with
    | none =>
      simp only [htype] at h
      exact ⟨(c, _), ⟨hname, hvariants, by simp [htype], rfl⟩, h⟩
    | some type =>
      simp only [htype, bind_eq_ok] at h
      obtain ⟨⟨⟩, hcheck, h⟩ := h
      refine ⟨(c, _), ⟨hname, hvariants, fun type' htype' => ?_, rfl⟩, h⟩
      cases htype.symm.trans htype'
      exact checkType_eq_ok_iff.mp hcheck
  · rintro ⟨⟨c, role⟩, ⟨hname, hvariants, hcheck, rfl⟩, h⟩
    refine ⟨c, hname, by simpa using hvariants, ?_⟩
    cases htype : d.type with
    | none => exact h
    | some type =>
      simp only [bind_eq_ok]
      exact ⟨(), checkType_eq_ok_iff.mpr (hcheck type htype), h⟩

/-- The derivatives that the ledger does not hold, each said to be zero. -/
def undeclared (s : Signature) (l : Ledger) : List Statement :=
  (s.derivatives.filter fun c => !l.contains c).map (·, .constant .zero)

theorem mem_undeclared {m : Statement} : m ∈ s.undeclared l ↔
    (m.1 ∈ s.derivatives ∧ l.contains m.1 = false) ∧ m.2 = .constant .zero := by
  rw [undeclared, List.mem_map]
  constructor
  · rintro ⟨c, hc, rfl⟩
    rw [List.mem_filter, Bool.not_eq_true'] at hc
    exact ⟨hc, rfl⟩
  · rintro ⟨⟨hc, hnot⟩, hzero⟩
    exact ⟨m.1, List.mem_filter.mpr ⟨hc, by simpa using hnot⟩, Prod.ext rfl hzero.symm⟩

theorem foldlM_declare_eq_ok_iff {ds : List Declaration} : ds.foldlM s.declare l = .ok l' ↔
    ∃ said, List.Forall₂ s.Declares ds said ∧ l.recordAll s said = .ok l' := by
  have hstep : ∀ l d l', s.declare l d = .ok l' ↔ ∃ m, s.Declares d m ∧
      l.record s m.1 m.2 = .ok l' :=
    fun l d l' => declare_eq_ok_iff
  simp only [foldlM_eq_ok_iff hstep, recordAll]

end Signature

namespace Header

theorem ofDescription_eq_ok_iff {d : Description} {h : Header} : ofDescription d = .ok h ↔
    ∃ inputs outputs variants ds declared l, Variable.ofSource "inputs" d.inputs = .ok inputs ∧
      Variable.ofSource "outputs" d.outputs = .ok outputs ∧
      Variant.ofShortNames d.variants = .ok variants ∧
      Signature.ofParts d.name inputs outputs variants = .ok h.toSignature ∧
      Declaration.ofSource "derivatives" d.derivatives = .ok ds ∧
      ds.foldlM h.declare .empty = .ok declared ∧
      declared.recordAll h.toSignature (h.undeclared declared) = .ok l ∧
      ofSignature h.toSignature l.constants = .ok h := by
  simp only [ofDescription, bind_eq_ok, recordZeros_eq]
  constructor
  · rintro ⟨inputs, hinputs, outputs, houtputs, variants, hvariants, s, hs, ds, hds, declared,
      hdeclared, l, hl, hh⟩
    have hsignature : h.toSignature = s := by
      obtain ⟨_, -, hpure⟩ := bind_eq_ok.mp hh
      rw [← pure_eq_ok.mp hpure]
    subst hsignature
    exact ⟨inputs, outputs, variants, ds, declared, l, hinputs, houtputs, hvariants, hs, hds,
      hdeclared, hl, hh⟩
  · rintro ⟨inputs, outputs, variants, ds, declared, l, hinputs, houtputs, hvariants, hs, hds,
      hdeclared, hl, hh⟩
    exact ⟨inputs, hinputs, outputs, houtputs, variants, hvariants, h.toSignature, hs, ds, hds,
      declared, hdeclared, l, hl, hh⟩

end Header

end DerivativeHeaders
