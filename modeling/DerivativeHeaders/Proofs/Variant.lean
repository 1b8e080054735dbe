import DerivativeHeaders.Proofs.Outcome
import DerivativeHeaders.Signature
import Mathlib.Data.List.Nodup

/-! # Variants in the order of the registry

The registered variants form a chain: each has the toggles of the ones before it. A list of them in
this order is its own reordering, and its widest variant is one of the list. Short names stand for
the registered variants one to one.
-/
namespace DerivativeHeaders

open Outcome

namespace Variant

def Precedes (v w : Variant) : Prop := ∃ i j, v.position? = some i ∧ w.position? = some j ∧ i < j

theorem precedes_irrefl (v : Variant) : ¬ v.Precedes v := by
  rintro ⟨i, j, hi, hj, hlt⟩
  rw [hi] at hj
  cases hj
  exact Nat.lt_irrefl i hlt

theorem ne_of_precedes {v w : Variant} (h : v.Precedes w) : v ≠ w := by
  rintro rfl
  exact precedes_irrefl v h

theorem precedes_asymm {v w : Variant} (h : v.Precedes w) : ¬ w.Precedes v := by
  obtain ⟨i, j, hi, hj, hlt⟩ := h
  rintro ⟨j', i', hj', hi', hlt'⟩
  rw [hi] at hi'
  rw [hj] at hj'
  cases hi'
  cases hj'
  omega

theorem registry_precedes : (registry.map Prod.snd).Pairwise Precedes := by
  have h01 : plain.Precedes ⟨true, false⟩ := ⟨0, 1, rfl, rfl, by decide⟩
  have h02 : plain.Precedes ⟨true, true⟩ := ⟨0, 2, rfl, rfl, by decide⟩
  have h12 : (⟨true, false⟩ : Variant).Precedes ⟨true, true⟩ := ⟨1, 2, rfl, rfl, by decide⟩
  simp [registry, h01, h02, h12]

theorem mem_registry_iff {v : Variant} : v ∈ registry.map Prod.snd ↔ v.position?.isSome := by
  obtain ⟨_ | _, _ | _⟩ := v <;> decide

/-- Registered variants in the order of the registry, each once, and the plain one first. -/
structure IsOrdered (vs : List Variant) : Prop where
  registered : ∀ v ∈ vs, v.position?.isSome
  distinct : vs.Nodup
  increasing : vs.Pairwise Precedes
  plainFirst : vs.head? = some plain

theorem eq_of_mem_iff {vs ws : List Variant} (hv : vs.Pairwise Precedes) (hw : ws.Pairwise Precedes)
    (h : ∀ v, v ∈ vs ↔ v ∈ ws) : vs = ws := by
  have hnodup {us : List Variant} (hus : us.Pairwise Precedes) : us.Nodup :=
    hus.imp ne_of_precedes
  refine List.Perm.eq_of_pairwise ?_ hv hw
    ((List.perm_ext_iff_of_nodup (hnodup hv) (hnodup hw)).mpr h)
  intro v w _ _ hvw hwv
  exact absurd hwv (precedes_asymm hvw)

theorem checkAll_eq_ok_iff {seen vs : List Variant} : checkAll seen vs = .ok () ↔
    (∀ v ∈ vs, v.position?.isSome) ∧ vs.Nodup ∧ ∀ v ∈ vs, v ∉ seen := by
  induction vs generalizing seen with
  | nil => simp [checkAll]
  | cons v vs ih =>
    rw [checkAll]
    cases hv : v.position? with
    | none => simp [hv]
    | some i =>
      by_cases hseen : v ∈ seen
      · simp [hseen]
      · simp only [Option.isNone_some, Bool.false_eq_true, ↓reduceIte, hseen,
          ih, List.nodup_cons, List.mem_cons, forall_eq_or_imp, hv, Option.isSome_some, true_and,
          not_false_eq_true, not_or]
        grind

/-- The ordered variants are the registered ones among the given, with the plain variant. -/
theorem inOrder_eq_ok_iff {vs ws : List Variant} : inOrder vs = .ok ws ↔
    ((∀ v ∈ vs, v.position?.isSome) ∧ vs.Nodup) ∧ plain ∈ vs ∧
      ws = (registry.map Prod.snd).filter (· ∈ vs) := by
  simp only [inOrder, bind_eq_ok]
  constructor
  · rintro ⟨⟨⟩, hcheck, h⟩
    obtain ⟨hregistered, hnodup, -⟩ := checkAll_eq_ok_iff.mp hcheck
    split at h
    · rename_i hplain
      exact ⟨⟨hregistered, hnodup⟩, hplain, (pure_eq_ok.mp h).symm⟩
    · cases h
  · rintro ⟨⟨hregistered, hnodup⟩, hplain, rfl⟩
    refine ⟨(), checkAll_eq_ok_iff.mpr ⟨hregistered, hnodup, by simp⟩, ?_⟩
    rw [if_pos hplain]
    rfl

theorem mem_of_inOrder {vs ws : List Variant} (h : inOrder vs = .ok ws) (v : Variant) :
    v ∈ ws ↔ v ∈ vs := by
  obtain ⟨⟨hregistered, -⟩, -, rfl⟩ := inOrder_eq_ok_iff.mp h
  simp only [List.mem_filter, mem_registry_iff, decide_eq_true_eq, and_iff_right_iff_imp]
  exact hregistered v

theorem isOrdered_inOrder {vs ws : List Variant} (h : inOrder vs = .ok ws) : IsOrdered ws := by
  obtain ⟨⟨hregistered, -⟩, hplain, rfl⟩ := inOrder_eq_ok_iff.mp h
  have hincreasing := registry_precedes.filter fun v => v ∈ vs
  refine ⟨fun v hv => hregistered v (by simpa using (List.mem_filter.mp hv).2), ?_, hincreasing, ?_⟩
  · exact hincreasing.imp ne_of_precedes
  · have hregistry : registry.map Prod.snd = plain :: [⟨true, false⟩, ⟨true, true⟩] := rfl
    rw [hregistry, List.filter_cons_of_pos (by simpa using hplain), List.head?_cons]

namespace IsOrdered

variable {vs : List Variant}

theorem plain_mem (h : IsOrdered vs) : plain ∈ vs := List.mem_of_mem_head? h.plainFirst

theorem inOrder_eq (h : IsOrdered vs) : inOrder vs = .ok vs := by
  refine inOrder_eq_ok_iff.mpr ⟨⟨h.registered, h.distinct⟩, h.plain_mem, ?_⟩
  refine eq_of_mem_iff h.increasing (registry_precedes.filter fun v => v ∈ vs) fun v => ?_
  simp only [List.mem_filter, mem_registry_iff, decide_eq_true_eq, iff_and_self]
  exact h.registered v

end IsOrdered

theorem union_eq_or {v w : Variant} (hv : v.position?.isSome) (hw : w.position?.isSome) :
    v.union w = v ∨ v.union w = w := by
  revert hv hw
  obtain ⟨_ | _, _ | _⟩ := v <;> obtain ⟨_ | _, _ | _⟩ := w <;> decide

theorem foldl_union_mem {v : Variant} (hv : v.position?.isSome) {vs : List Variant}
    (h : ∀ w ∈ vs, w.position?.isSome) : vs.foldl union v ∈ v :: vs := by
  induction vs generalizing v with
  | nil => exact List.mem_singleton_self v
  | cons w vs ih =>
    have hw := h w List.mem_cons_self
    have hvs := fun u hu => h u (List.mem_cons_of_mem w hu)
    rw [List.foldl_cons]
    rcases union_eq_or hv hw with heq | heq
    · rw [heq]
      rcases List.mem_cons.mp (ih hv hvs) with hmem | hmem
      · rw [hmem]
        exact List.mem_cons_self
      · exact List.mem_cons_of_mem _ (List.mem_cons_of_mem _ hmem)
    · rw [heq]
      exact List.mem_cons_of_mem _ (ih hw hvs)

theorem IsOrdered.unionAll_mem {vs : List Variant} (h : IsOrdered vs) : unionAll vs ∈ vs := by
  have hplain : plain.position?.isSome := rfl
  rw [unionAll]
  rcases List.mem_cons.mp (foldl_union_mem hplain h.registered) with hmem | hmem
  · rw [hmem]
    exact h.plain_mem
  · exact hmem

/-- The variants with the given short names, in the order of the registry. -/
def named (names : List String) : List Variant :=
  (registry.filter fun x => x.1 ∈ names).map Prod.snd

section Named

variable {names : List String} {vs ws : List Variant}

/-- No two registered variants share their short name. -/
theorem registry_unique {x y : String × Variant} (hx : x ∈ registry) (hy : y ∈ registry) :
    x.1 = y.1 ↔ x.2 = y.2 := by
  revert hx hy
  simp only [registry, List.mem_cons, List.not_mem_nil, or_false]
  rintro (rfl | rfl | rfl) (rfl | rfl | rfl) <;> decide

theorem ofShortName?_eq_some_iff {n : String} {v : Variant} :
    ofShortName? n = some v ↔ (n, v) ∈ registry := by
  rw [ofShortName?, Option.map_eq_some_iff]
  constructor
  · rintro ⟨⟨m, w⟩, hfind, rfl⟩
    have hm : m = n := by simpa using List.find?_some hfind
    exact hm ▸ List.mem_of_find?_eq_some hfind
  · intro hmem
    cases hfind : registry.find? fun x => x.1 == n with
    | none =>
      have hnot := List.find?_eq_none.mp hfind _ hmem
      simp at hnot
    | some y =>
      have hy : y.1 = n := by simpa using List.find?_some hfind
      exact ⟨y, rfl, (registry_unique (List.mem_of_find?_eq_some hfind) hmem).mp hy⟩

theorem ofShortNames_eq_ok_iff :
    ofShortNames names = .ok vs ↔ List.Forall₂ (fun n v => (n, v) ∈ registry) names vs := by
  rw [ofShortNames, mapM_eq_ok_iff]
  constructor
  · intro h
    apply h.imp
    intro n v hv
    split at hv
    · rename_i hfound
      cases hv
      exact ofShortName?_eq_some_iff.mp hfound
    · cases hv
  · intro h
    apply h.imp
    intro n v hv
    rw [ofShortName?_eq_some_iff.mpr hv]

theorem mem_of_names (h : List.Forall₂ (fun n v => (n, v) ∈ registry) names vs)
    {x : String × Variant}
    (hx : x ∈ registry) : x.2 ∈ vs ↔ x.1 ∈ names := by
  constructor
  · intro hv
    obtain ⟨n, hn, hmem⟩ := forall₂_exists_left h hv
    rwa [(registry_unique hx hmem).mpr rfl]
  · intro hn
    obtain ⟨v, hv, hmem⟩ := forall₂_exists_right h hn
    rwa [(registry_unique hx hmem).mp rfl]

theorem nodup_of_names (h : List.Forall₂ (fun n v => (n, v) ∈ registry) names vs) :
    vs.Nodup ↔ names.Nodup := by
  induction h with
  | nil => simp
  | cons hmem hrest ih =>
    rw [List.nodup_cons, List.nodup_cons, ih]
    exact and_congr_left fun _ => not_congr (mem_of_names hrest hmem)

/-- Short names are accepted if all are registered, none comes twice, and the plain variant is among
them. -/
theorem inOrder_ofShortNames_iff : (∃ vs, ofShortNames names = .ok vs ∧ inOrder vs = .ok ws) ↔
    ((∀ n ∈ names, n ∈ registry.map Prod.fst) ∧ names.Nodup ∧ "d0" ∈ names) ∧ ws = named names := by
  have hplain : ("d0", plain) ∈ registry := by decide
  have hregistered {vs : List Variant} (h : List.Forall₂ (fun n v => (n, v) ∈ registry) names vs) :
      ∀ v ∈ vs, v.position?.isSome := by
    intro v hv
    obtain ⟨n, -, hmem⟩ := forall₂_exists_left h hv
    exact mem_registry_iff.mp (List.mem_map_of_mem hmem)
  have hnamed {vs : List Variant} (h : List.Forall₂ (fun n v => (n, v) ∈ registry) names vs) :
      (registry.map Prod.snd).filter (· ∈ vs) = named names := by
    rw [named, List.filter_map]
    apply congrArg (List.map Prod.snd)
    apply List.filter_congr
    intro x hx
    simp only [Function.comp_apply, decide_eq_decide]
    exact mem_of_names h hx
  simp only [ofShortNames_eq_ok_iff, inOrder_eq_ok_iff]
  constructor
  · rintro ⟨vs, hvs, ⟨-, hdistinct⟩, hmem, rfl⟩
    refine ⟨⟨fun n hn => ?_, (nodup_of_names hvs).mp hdistinct, (mem_of_names hvs hplain).mp hmem⟩,
      hnamed hvs⟩
    obtain ⟨v, -, hv⟩ := forall₂_exists_right hvs hn
    exact List.mem_map_of_mem hv
  · rintro ⟨⟨hnames, hdistinct, hmem⟩, rfl⟩
    have hexists : ∀ n ∈ names, ∃ v, (n, v) ∈ registry := by
      intro n hn
      obtain ⟨x, hx, rfl⟩ := List.mem_map.mp (hnames n hn)
      exact ⟨x.2, hx⟩
    obtain ⟨vs, hvs⟩ := exists_forall₂ hexists
    exact ⟨vs, hvs, ⟨hregistered hvs, (nodup_of_names hvs).mpr hdistinct⟩,
      (mem_of_names hvs hplain).mpr hmem, (hnamed hvs).symm⟩

end Named
end Variant

end DerivativeHeaders
