import DerivativeHeaders.Channel

/-! # Maps from channels

A map is a list of pairs in strictly ascending order of their channels, so maps that hold the
same values are equal. -/
namespace DerivativeHeaders

structure ChannelMap (β : Type) where
  entries : List (Channel × β)
  ascending : entries.Pairwise fun x y => x.1 < y.1

namespace ChannelMap

variable {β γ : Type}

instance [DecidableEq β] : DecidableEq (ChannelMap β) := fun m m' =>
  if h : m.entries = m'.entries then
    isTrue (by cases m; cases m'; cases h; rfl)
  else isFalse fun e => h (e ▸ rfl)

def empty : ChannelMap β := ⟨[], List.Pairwise.nil⟩

instance : Inhabited (ChannelMap β) := ⟨empty⟩

def keys (m : ChannelMap β) : List Channel := m.entries.map Prod.fst

def size (m : ChannelMap β) : Nat := m.entries.length

def findEntry (c : Channel) : List (Channel × β) → Option β
  | [] => none
  | (d, w) :: rest => if c = d then some w else findEntry c rest

def get? (m : ChannelMap β) (c : Channel) : Option β := findEntry c m.entries

def contains (m : ChannelMap β) (c : Channel) : Bool := (m.get? c).isSome

/-- Puts a pair at its place among ascending pairs, in place of one with the same channel. -/
def insertEntry (c : Channel) (v : β) : List (Channel × β) → List (Channel × β)
  | [] => [(c, v)]
  | (d, w) :: rest =>
    if c < d then (c, v) :: (d, w) :: rest
    else if c = d then (c, v) :: rest
    else (d, w) :: insertEntry c v rest

theorem fst_of_mem_insertEntry {c : Channel} {v : β} {entries : List (Channel × β)}
    {x : Channel × β} (h : x ∈ insertEntry c v entries) : x.1 = c ∨ x ∈ entries := by
  induction entries with
  | nil => exact .inl (by simp_all [insertEntry])
  | cons y rest ih =>
    rw [insertEntry] at h
    split at h
    · rcases List.mem_cons.mp h with rfl | h
      · exact .inl rfl
      · exact .inr h
    · split at h
      · rcases List.mem_cons.mp h with rfl | h
        · exact .inl rfl
        · exact .inr (List.mem_cons_of_mem _ h)
      · rcases List.mem_cons.mp h with rfl | h
        · exact .inr List.mem_cons_self
        · exact (ih h).imp_right (List.mem_cons_of_mem _)

theorem pairwise_insertEntry (c : Channel) (v : β) {entries : List (Channel × β)}
    (h : entries.Pairwise fun x y => x.1 < y.1) :
    (insertEntry c v entries).Pairwise fun x y => x.1 < y.1 := by
  induction entries with
  | nil => exact List.pairwise_singleton _ _
  | cons y rest ih =>
    obtain ⟨hy, hrest⟩ := List.pairwise_cons.mp h
    rw [insertEntry]
    split
    · rename_i hlt
      refine List.pairwise_cons.mpr ⟨fun x hx => ?_, h⟩
      rcases List.mem_cons.mp hx with rfl | hx
      · exact hlt
      · exact Channel.lt_trans hlt (hy x hx)
    · rename_i hnlt
      split
      · rename_i heq
        exact List.pairwise_cons.mpr ⟨fun x hx => heq ▸ hy x hx, hrest⟩
      · rename_i hne
        refine List.pairwise_cons.mpr ⟨fun x hx => ?_, ih hrest⟩
        rcases fst_of_mem_insertEntry hx with hx | hx
        · rcases Channel.lt_or_eq_or_gt c y.1 with hlt | heq | hgt
          · exact absurd hlt hnlt
          · exact absurd heq hne
          · exact hx ▸ hgt
        · exact hy x hx

def insert (m : ChannelMap β) (c : Channel) (v : β) : ChannelMap β :=
  ⟨insertEntry c v m.entries, pairwise_insertEntry c v m.ascending⟩

/-- The map of a list of pairs; of two pairs with one channel the later counts. -/
def ofList (pairs : List (Channel × β)) : ChannelMap β :=
  pairs.foldl (fun m x => m.insert x.1 x.2) empty

def map (f : β → γ) (m : ChannelMap β) : ChannelMap γ :=
  ⟨m.entries.map fun x => (x.1, f x.2), by
    rw [List.pairwise_map]
    exact m.ascending⟩

/-- The pairs that `f` keeps, with new values. -/
def filterMap (f : Channel → β → Option γ) (m : ChannelMap β) : ChannelMap γ :=
  ⟨m.entries.filterMap fun x => (f x.1 x.2).map (x.1, ·), by
    rw [List.pairwise_filterMap]
    refine m.ascending.imp fun h x' hx y' hy => ?_
    obtain ⟨_, _, rfl⟩ := Option.map_eq_some_iff.mp hx
    obtain ⟨_, _, rfl⟩ := Option.map_eq_some_iff.mp hy
    exact h⟩

theorem get?_empty (c : Channel) : (empty : ChannelMap β).get? c = none := rfl

theorem findEntry_insertEntry (c d : Channel) (v : β) (entries : List (Channel × β)) :
    findEntry d (insertEntry c v entries) = if d = c then some v else findEntry d entries := by
  induction entries with
  | nil => rfl
  | cons y rest ih =>
    rw [insertEntry]
    split
    · rfl
    · rename_i hnlt
      split
      · rename_i heq
        subst heq
        simp only [findEntry]
        split <;> rfl
      · rename_i hne
        simp only [findEntry, ih]
        by_cases hdc : d = c
        · simp [hdc, hne]
        · simp [hdc]

theorem get?_insert (m : ChannelMap β) (c d : Channel) (v : β) :
    (m.insert c v).get? d = if d = c then some v else m.get? d :=
  findEntry_insertEntry c d v m.entries

end ChannelMap

def Channel.ascending (channels : List Channel) : List Channel :=
  (ChannelMap.ofList (channels.map (·, ()))).keys

end DerivativeHeaders
