import DerivativeHeaders.Proofs.Text.Lines

/-! # Where two texts part

Two lists of lines part after the lines that they start with alike. Lines may agree where their
segments do not, so texts part among their lines no earlier than among their segments, and at the
same place if the terminators are plain.
-/
namespace DerivativeHeaders.Text

variable {α β : Type} {as bs : List α} {a b : α} {n m : Nat} {cs ds : List Char}

/-- The first `n` items of two lists are the same, and then no item is there in both. -/
structure PartAfter (as bs : List α) (n : Nat) : Prop where
  shared : ∀ i < n, ∃ a, as[i]? = some a ∧ bs[i]? = some a
  parted : ∀ a, as[n]? = some a → bs[n]? ≠ some a

theorem partAfter_zero_iff : PartAfter as bs 0 ↔ ∀ a, as[0]? = some a → bs[0]? ≠ some a :=
  ⟨PartAfter.parted, fun h => ⟨nofun, h⟩⟩

theorem partAfter_cons : PartAfter (a :: as) (a :: bs) (n + 1) ↔ PartAfter as bs n := by
  constructor
  · intro h
    exact ⟨fun i hi => h.shared (i + 1) (Nat.succ_lt_succ hi), h.parted⟩
  · intro h
    refine ⟨fun i hi => ?_, h.parted⟩
    cases i with
    | zero => exact ⟨a, rfl, rfl⟩
    | succ i => exact h.shared i (Nat.lt_of_succ_lt_succ hi)

theorem PartAfter.append (h : PartAfter as bs n) (before : List α) :
    PartAfter (before ++ as) (before ++ bs) (before.length + n) := by
  induction before with
  | nil => simpa using h
  | cons first before ih =>
    rw [List.length_cons, Nat.add_right_comm]
    exact partAfter_cons.mpr ih

theorem PartAfter.le (h : PartAfter as bs n)
    (h' : ∀ i < m, ∃ a, as[i]? = some a ∧ bs[i]? = some a) : m ≤ n := by
  by_contra hlt
  obtain ⟨a, ha, hb⟩ := h' n (Nat.lt_of_not_le hlt)
  exact h.parted a ha hb

theorem PartAfter.unique (h : PartAfter as bs n) (h' : PartAfter as bs m) : n = m :=
  le_antisymm (h'.le h.shared) (h.le h'.shared)

/-- How many items two lists start with alike. -/
def agreement [BEq α] (as bs : List α) : Nat := ((as.zip bs).takeWhile fun x => x.1 == x.2).length

theorem partAfter_agreement [BEq α] [LawfulBEq α] (as bs : List α) :
    PartAfter as bs (agreement as bs) := by
  induction as generalizing bs with
  | nil => exact partAfter_zero_iff.mpr nofun
  | cons a as ih =>
    cases bs with
    | nil => exact partAfter_zero_iff.mpr nofun
    | cons b bs =>
      rw [agreement, List.zip_cons_cons, List.takeWhile_cons]
      split
      · rename_i hab
        obtain rfl : a = b := eq_of_beq hab
        exact partAfter_cons.mpr (ih bs)
      · rename_i hab
        apply partAfter_zero_iff.mpr
        intro x hx hx'
        exact hab (beq_of_eq (Option.some.inj (hx.trans hx'.symm)))

instance [DecidableEq α] : Decidable (PartAfter as bs n) :=
  decidable_of_iff (agreement as bs = n)
    ⟨fun h => h ▸ partAfter_agreement as bs, fun h => (partAfter_agreement as bs).unique h⟩

/-- Items that are the same are mapped to the same, so the images of two lists do not part
earlier. -/
theorem PartAfter.le_map {f : α → β} (h : PartAfter as bs n)
    (h' : PartAfter (as.map f) (bs.map f) m) : n ≤ m := by
  refine h'.le fun i hi => ?_
  obtain ⟨a, ha, hb⟩ := h.shared i hi
  exact ⟨f a, by rw [List.getElem?_map, ha, Option.map_some],
    by rw [List.getElem?_map, hb, Option.map_some]⟩

theorem PartAfter.map_le {f : α → β} (h : PartAfter as bs n)
    (h' : PartAfter (as.map f) (bs.map f) m)
    (hf : ∀ a ∈ as, ∀ b ∈ bs, f a = f b → a = b) : m ≤ n := by
  refine h.le fun i hi => ?_
  obtain ⟨y, ha, hb⟩ := h'.shared i hi
  rw [List.getElem?_map, Option.map_eq_some_iff] at ha hb
  obtain ⟨a, ha, hy⟩ := ha
  obtain ⟨b, hb, hy'⟩ := hb
  obtain rfl := hf a (List.mem_of_getElem? ha) b (List.mem_of_getElem? hb) (hy.trans hy'.symm)
  exact ⟨a, ha, hb⟩

theorem PartAfter.le_lines (h : PartAfter (segments cs) (segments ds) n)
    (h' : PartAfter (lines cs) (lines ds) m) : n ≤ m :=
  h.le_map h'

/-- Plain lines are the same exactly if their segments are. -/
theorem PartAfter.eq_lines (h : PartAfter (segments cs) (segments ds) n)
    (h' : PartAfter (lines cs) (lines ds) m)
    (hcs : EndsPlainly cs) (hds : EndsPlainly ds) : n = m := by
  refine le_antisymm (h.le_lines h') (h.map_le h' fun a ha b hb hab => ?_)
  rw [hcs.segment_eq ha, hds.segment_eq hb, hab]

end DerivativeHeaders.Text
