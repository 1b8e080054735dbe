import DerivativeHeaders.ChannelMap

/-! # Maps from channels by their values

The entries of a map are in ascending order, so what it holds for each channel is all there is
to it.
-/
namespace DerivativeHeaders.ChannelMap

variable {β γ : Type}

theorem findEntry_eq_some_iff {entries : List (Channel × β)}
    (h : entries.Pairwise fun x y => x.1 < y.1)
    {c : Channel} {v : β} : findEntry c entries = some v ↔ (c, v) ∈ entries := by
  induction entries with
  | nil => simp [findEntry]
  | cons x rest ih =>
    obtain ⟨d, w⟩ := x
    obtain ⟨hfirst, hrest⟩ := List.pairwise_cons.mp h
    rw [findEntry, List.mem_cons]
    by_cases hcd : c = d
    · subst hcd
      have hnot : (c, v) ∉ rest := fun hmem => Channel.lt_irrefl c (hfirst _ hmem)
      simp [hnot, eq_comm]
    · simp [hcd, ih hrest]

theorem get?_eq_some_iff {m : ChannelMap β} {c : Channel} {v : β} :
    m.get? c = some v ↔ (c, v) ∈ m.entries :=
  findEntry_eq_some_iff m.ascending

theorem contains_iff {m : ChannelMap β} {c : Channel} : m.contains c ↔ ∃ v, m.get? c = some v := by
  rw [contains, Option.isSome_iff_exists]

theorem contains_eq_false_iff {m : ChannelMap β} {c : Channel} :
    m.contains c = false ↔ m.get? c = none := by
  rw [contains, Option.isSome_eq_false_iff, Option.isNone_iff_eq_none]

theorem entries_eq_of_mem_iff {a b : List (Channel × β)} (ha : a.Pairwise fun x y => x.1 < y.1)
    (hb : b.Pairwise fun x y => x.1 < y.1) (h : ∀ x, x ∈ a ↔ x ∈ b) : a = b := by
  have hnodup {l : List (Channel × β)} (hl : l.Pairwise fun x y => x.1 < y.1) : l.Nodup :=
    hl.imp fun {x y} hlt heq => Channel.ne_of_lt hlt (congrArg Prod.fst heq)
  refine List.Perm.eq_of_pairwise ?_ ha hb
    ((List.perm_ext_iff_of_nodup (hnodup ha) (hnodup hb)).mpr h)
  intro x y _ _ hxy hyx
  exact absurd hyx (Channel.lt_asymm hxy)

@[ext] theorem ext {m m' : ChannelMap β} (h : ∀ c, m.get? c = m'.get? c) : m = m' := by
  have hentries : m.entries = m'.entries := by
    refine entries_eq_of_mem_iff m.ascending m'.ascending fun x => ?_
    rw [← get?_eq_some_iff, ← get?_eq_some_iff, h]
  cases m
  cases m'
  cases hentries
  rfl

theorem get?_map (f : β → γ) (m : ChannelMap β) (c : Channel) :
    (m.map f).get? c = (m.get? c).map f := by
  ext w
  simp only [get?_eq_some_iff, map, List.mem_map, Prod.mk.injEq, Option.map_eq_some_iff]
  constructor
  · rintro ⟨⟨d, v⟩, hmem, rfl, rfl⟩
    exact ⟨v, hmem, rfl⟩
  · rintro ⟨v, hmem, rfl⟩
    exact ⟨(c, v), hmem, rfl, rfl⟩

theorem get?_filterMap (f : Channel → β → Option γ) (m : ChannelMap β) (c : Channel) :
    (m.filterMap f).get? c = (m.get? c).bind (f c) := by
  ext w
  simp only [get?_eq_some_iff, filterMap, List.mem_filterMap, Option.map_eq_some_iff, Prod.mk.injEq,
    Option.bind_eq_some_iff]
  constructor
  · rintro ⟨⟨d, v⟩, hmem, y, hy, rfl, rfl⟩
    exact ⟨v, hmem, hy⟩
  · rintro ⟨v, hmem, hv⟩
    exact ⟨(c, v), hmem, w, hv, rfl, rfl⟩

theorem insert_of_get? {m : ChannelMap β} {c : Channel} {v : β} (h : m.get? c = some v) :
    m.insert c v = m := by
  ext d : 1
  rw [get?_insert]
  split
  · rename_i heq
    rw [heq, h]
  · rfl

theorem map_eq_self {f : β → β} {m : ChannelMap β} (h : ∀ c v, m.get? c = some v → f v = v) :
    m.map f = m := by
  ext c w
  rw [get?_map]
  cases hv : m.get? c with
  | none => rfl
  | some v => rw [Option.map_some, h c v hv]

theorem mem_keys_iff {m : ChannelMap β} {c : Channel} : c ∈ m.keys ↔ m.contains c := by
  rw [contains_iff, keys, List.mem_map]
  constructor
  · rintro ⟨x, hx, rfl⟩
    exact ⟨x.2, get?_eq_some_iff.mpr hx⟩
  · rintro ⟨y, hy⟩
    exact ⟨(c, y), get?_eq_some_iff.mp hy, rfl⟩

/-- A map of pairs that are all made by one function holds what the function gives. -/
theorem get?_ofList_map (f : Channel → β) (cs : List Channel) (c : Channel) :
    (ofList (cs.map fun c => (c, f c))).get? c = if c ∈ cs then some (f c) else none := by
  have hfold (m : ChannelMap β) :
      ((cs.map fun c => (c, f c)).foldl (fun m x => m.insert x.1 x.2) m).get? c =
        if c ∈ cs then some (f c) else m.get? c := by
    induction cs generalizing m with
    | nil => simp
    | cons d cs ih =>
      rw [List.map_cons, List.foldl_cons, ih, get?_insert]
      by_cases hmem : c ∈ cs
      · simp [hmem]
      · by_cases hd : c = d
        · simp [hd]
        · simp [hmem, hd]
  rw [ofList, hfold, get?_empty]

end DerivativeHeaders.ChannelMap
