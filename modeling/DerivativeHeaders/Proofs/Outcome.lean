import Mathlib.Data.List.Forall2

/-! # Successful computations

A computation that can fail succeeds exactly when each of its parts does.
-/
namespace DerivativeHeaders.Outcome

variable {ε α β σ : Type}

theorem bind_eq_ok {x : Except ε α} {f : α → Except ε β} {b : β} :
    (x >>= f) = .ok b ↔ ∃ a, x = .ok a ∧ f a = .ok b := by
  cases x <;> simp [bind, Except.bind]

theorem bind_eq_error {x : Except ε α} {f : α → Except ε β} {e : ε} :
    (x >>= f) = .error e ↔ x = .error e ∨ ∃ a, x = .ok a ∧ f a = .error e := by
  cases x <;> simp [bind, Except.bind]

theorem map_eq_ok {x : Except ε α} {f : α → β} {b : β} :
    f <$> x = .ok b ↔ ∃ a, x = .ok a ∧ f a = b := by
  cases x <;> simp [Functor.map, Except.map]

theorem pure_eq_ok {a b : α} : (pure a : Except ε α) = .ok b ↔ a = b := by simp [pure, Except.pure]

theorem exists_of_isOk {x : Except ε α} (h : x.isOk) : ∃ a, x = .ok a := by
  cases x with
  | error e => cases h
  | ok a => exact ⟨a, rfl⟩

theorem eq_ok_of_toOption {x : Except ε α} {a : α} (h : x.toOption = some a) : x = .ok a := by
  cases x with
  | error e => cases h
  | ok b => exact congrArg Except.ok (Option.some.inj h)

theorem guard_eq_ok {p : Prop} [Decidable p] {fault : ε} {f : PUnit → Except ε β}
    {x : Except ε β} {b : β} :
    (if p then throw fault >>= f else x) = .ok b ↔ ¬ p ∧ x = .ok b := by
  by_cases h : p
  · simp [h, bind, Except.bind, throw, throwThe, MonadExceptOf.throw]
  · simp [h]

theorem mapM_eq_ok_iff {f : α → Except ε β} {xs : List α} {ys : List β} :
    xs.mapM f = .ok ys ↔ List.Forall₂ (fun x y => f x = .ok y) xs ys := by
  induction xs generalizing ys with
  | nil => cases ys <;> simp [pure_eq_ok]
  | cons x xs ih =>
    simp only [List.mapM_cons, bind_eq_ok, pure_eq_ok, ih, List.forall₂_cons_left_iff]
    constructor
    · rintro ⟨y, hy, ys', hys, rfl⟩
      exact ⟨y, ys', hy, hys, rfl⟩
    · rintro ⟨y, ys', hy, hys, rfl⟩
      exact ⟨y, hy, ys', hys, rfl⟩

/-- Only an item can fail. -/
theorem exists_of_mapM_eq_error {f : α → Except ε β} {xs : List α} {e : ε}
    (h : xs.mapM f = .error e) :
    ∃ x ∈ xs, f x = .error e := by
  induction xs with
  | nil => cases h
  | cons x xs ih =>
    simp only [List.mapM_cons, bind_eq_error] at h
    rcases h with hx | ⟨y, -, hxs | ⟨ys, -, hpure⟩⟩
    · exact ⟨x, List.mem_cons_self, hx⟩
    · obtain ⟨x', hx', he⟩ := ih hxs
      exact ⟨x', List.mem_cons_of_mem _ hx', he⟩
    · cases hpure

/-- If every item is mapped to a result that is related to something, then so are all items
together. -/
theorem mapM_exists {γ : Type} {f : α → Except ε β} {r : β → γ → Prop}
    {q : α → γ → Prop} {xs : List α}
    (h : ∀ x ∈ xs, ∃ y z, f x = .ok y ∧ r y z ∧ q x z) :
    ∃ ys zs, xs.mapM f = .ok ys ∧ List.Forall₂ r ys zs ∧ List.Forall₂ q xs zs := by
  induction xs with
  | nil => exact ⟨[], [], rfl, .nil, .nil⟩
  | cons x xs ih =>
    obtain ⟨y, z, hy, hr, hq⟩ := h x List.mem_cons_self
    obtain ⟨ys, zs, hys, hrs, hqs⟩ := ih fun x' hx' => h x' (List.mem_cons_of_mem _ hx')
    refine ⟨y :: ys, z :: zs, ?_, .cons hr hrs, .cons hq hqs⟩
    rw [List.mapM_cons, hy, hys]
    rfl

theorem forall₂_comp {γ : Type} {r : α → β → Prop} {q : β → γ → Prop} {t : α → γ → Prop}
    (h : ∀ x y z, r x y → q y z → t x z) {xs : List α} {ys : List β} {zs : List γ}
    (hr : List.Forall₂ r xs ys)
    (hq : List.Forall₂ q ys zs) : List.Forall₂ t xs zs := by
  induction hr generalizing zs with
  | nil =>
    cases hq
    exact .nil
  | cons hxy _ ih =>
    cases hq with
    | cons hyz hq => exact .cons (h _ _ _ hxy hyz) (ih hq)

theorem forall₂_exists_right {r : α → β → Prop} {xs : List α} {ys : List β}
    (h : List.Forall₂ r xs ys) {x : α}
    (hx : x ∈ xs) : ∃ y ∈ ys, r x y := by
  induction h with
  | nil => cases hx
  | cons hxy _ ih =>
    rcases List.mem_cons.mp hx with rfl | hx
    · exact ⟨_, List.mem_cons_self, hxy⟩
    · obtain ⟨y, hy, hr⟩ := ih hx
      exact ⟨y, List.mem_cons_of_mem _ hy, hr⟩

theorem forall₂_exists_left {r : α → β → Prop} {xs : List α} {ys : List β}
    (h : List.Forall₂ r xs ys) {y : β}
    (hy : y ∈ ys) : ∃ x ∈ xs, r x y :=
  forall₂_exists_right h.flip hy

theorem forall₂_getElem? {r : α → β → Prop} {xs : List α} {ys : List β} (h : List.Forall₂ r xs ys)
    {i : Nat} {x : α}
    (hx : xs[i]? = some x) : ∃ y, ys[i]? = some y ∧ r x y := by
  induction h generalizing i with
  | nil => cases hx
  | cons hxy _ ih =>
    cases i with
    | zero =>
      cases hx
      exact ⟨_, rfl, hxy⟩
    | succ i => exact ih hx

theorem exists_forall₂ {r : α → β → Prop} {xs : List α} (h : ∀ x ∈ xs, ∃ y, r x y) :
    ∃ ys, List.Forall₂ r xs ys := by
  induction xs with
  | nil => exact ⟨[], .nil⟩
  | cons x xs ih =>
    obtain ⟨y, hy⟩ := h x List.mem_cons_self
    obtain ⟨ys, hys⟩ := ih fun x' hx' => h x' (List.mem_cons_of_mem _ hx')
    exact ⟨y :: ys, .cons hy hys⟩

/-- What is found in the items of a list, if something is found in each of them. -/
theorem forall₂_filterMap {γ : Type} {f : β → Option γ} {r : α → γ → Prop}
    {xs : List α} {ys : List β}
    (h : List.Forall₂ (fun x y => ∃ z, f y = some z ∧ r x z) xs ys) :
    List.Forall₂ r xs (ys.filterMap f) := by
  induction h with
  | nil => exact .nil
  | cons hxy _ ih =>
    obtain ⟨z, hz, hr⟩ := hxy
    rw [List.filterMap_cons_some hz]
    exact .cons hr ih

theorem foldlM_nil_eq_ok {f : σ → α → Except ε σ} {s t : σ} : [].foldlM f s = .ok t ↔ s = t := by
  rw [List.foldlM_nil, pure_eq_ok]

theorem foldlM_cons_eq_ok {f : σ → α → Except ε σ} {s t : σ} {x : α} {xs : List α} :
    (x :: xs).foldlM f s = .ok t ↔ ∃ u, f s x = .ok u ∧ xs.foldlM f u = .ok t := by
  rw [List.foldlM_cons, bind_eq_ok]

/-- A fold whose steps first read an item is a fold over what is read. -/
theorem foldlM_eq_ok_iff {f : σ → α → Except ε σ} {g : σ → β → Except ε σ} {reads : α → β → Prop}
    (hstep : ∀ s x t, f s x = .ok t ↔ ∃ y, reads x y ∧ g s y = .ok t) {s t : σ} {xs : List α} :
    xs.foldlM f s = .ok t ↔ ∃ ys, List.Forall₂ reads xs ys ∧ ys.foldlM g s = .ok t := by
  induction xs generalizing s with
  | nil => simp [List.forall₂_nil_left_iff]
  | cons x xs ih =>
    simp only [foldlM_cons_eq_ok, hstep, ih, List.forall₂_cons_left_iff]
    constructor
    · rintro ⟨u, ⟨y, hy, hu⟩, ys, hys, ht⟩
      exact ⟨y :: ys, ⟨y, ys, hy, hys, rfl⟩, foldlM_cons_eq_ok.mpr ⟨u, hu, ht⟩⟩
    · rintro ⟨_, ⟨y, ys, hy, hys, rfl⟩, h⟩
      obtain ⟨u, hu, ht⟩ := foldlM_cons_eq_ok.mp h
      exact ⟨u, ⟨y, hy, hu⟩, ys, hys, ht⟩

theorem forM_cons (f : α → Except ε Unit) (x : α) (xs : List α) :
    (x :: xs).forM f = (f x >>= fun _ => xs.forM f) := rfl

theorem forM_eq_ok_iff {f : α → Except ε Unit} {xs : List α} :
    xs.forM f = .ok () ↔ ∀ x ∈ xs, f x = .ok () := by
  induction xs with
  | nil => simp [pure, Except.pure]
  | cons x xs ih =>
    rw [forM_cons, bind_eq_ok, List.forall_mem_cons, ← ih]
    exact ⟨fun ⟨_, h, hs⟩ => ⟨h, hs⟩, fun ⟨h, hs⟩ => ⟨(), h, hs⟩⟩

end DerivativeHeaders.Outcome
