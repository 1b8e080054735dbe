import DerivativeHeaders.Ledger
import DerivativeHeaders.Proofs.ChannelMap
import DerivativeHeaders.Proofs.Number.Printed
import DerivativeHeaders.Proofs.Outcome

/-! # What a ledger holds

A ledger that has taken in a list of entries holds their roles, rounded, next to what it held
before. It takes in every list in which no two entries of one channel differ after rounding.
-/
namespace DerivativeHeaders

open Outcome

theorem Role.rounded_rounded (role : Role) : role.rounded.rounded = role.rounded := by
  cases role with
  | runtime => rfl
  | constant x => simp only [rounded, Binary64.asPrinted_asPrinted]

namespace Ledger

abbrev Statement := Channel × Role

variable {s : Signature} {l l' : Ledger} {c : Channel} {role : Role} {said : List Statement}

theorem ext (h : ∀ c, l.roles.get? c = l'.roles.get? c) : l = l' := by
  cases l
  cases l'
  exact congrArg mk (ChannelMap.ext h)

theorem record_eq_ok_iff : l.record s c role = .ok l' ↔
    (∀ earlier, l.roles.get? c = some earlier → earlier = role.rounded) ∧
      l' = ⟨l.roles.insert c role.rounded⟩ := by
  rw [record]
  cases hc : l.roles.get? c with
  | none => simp [eq_comm]
  | some earlier =>
    by_cases heq : earlier = role.rounded
    · have hsame : l.roles.insert c role.rounded = l.roles := ChannelMap.insert_of_get? (heq ▸ hc)
      simp only [heq, ↓reduceIte, Except.ok.injEq, Option.some.injEq, forall_eq', hsame, true_and]
      exact eq_comm
    · simp [heq]

def recordAll (s : Signature) (l : Ledger) (said : List Statement) : Except Fault Ledger :=
  said.foldlM (fun l m => l.record s m.1 m.2) l

theorem recordZeros_eq (s : Signature) (l : Ledger) (channels : List Channel) :
    l.recordZeros s channels = l.recordAll s (channels.map (·, .constant .zero)) := by
  rw [recordZeros, recordAll, List.foldlM_map]

theorem recordAll_append (s : Signature) (l : Ledger) (a b : List Statement) :
    l.recordAll s (a ++ b) = l.recordAll s a >>= fun l => l.recordAll s b := by
  simp only [recordAll, List.foldlM_append]

/-- Some entry says that the channel has the role, up to rounding. -/
def Entered (said : List Statement) (c : Channel) (role : Role) : Prop :=
  ∃ m ∈ said, m.1 = c ∧ m.2.rounded = role

theorem entered_cons {m : Statement} :
    Entered (m :: said) c role ↔ m.1 = c ∧ m.2.rounded = role ∨ Entered said c role := by
  simp only [Entered, List.exists_mem_cons_iff]

theorem not_entered_nil : ¬ Entered [] c role := by simp [Entered]

/-- The ledger after the entries holds their roles and the earlier ones, and nothing else. -/
theorem recordAll_eq_ok_iff : l.recordAll s said = .ok l' ↔
    ∀ c role, l'.roles.get? c = some role ↔ l.roles.get? c = some role ∨ Entered said c role := by
  induction said generalizing l with
  | nil =>
    simp only [recordAll, foldlM_nil_eq_ok, not_entered_nil, or_false]
    constructor
    · rintro rfl
      exact fun c role => Iff.rfl
    · intro h
      exact ext fun c => Option.ext fun role => (h c role).symm
  | cons m said ih =>
    simp only [recordAll] at ih
    simp only [recordAll, foldlM_cons_eq_ok, record_eq_ok_iff, ih, entered_cons]
    have hinsert (c : Channel) (role : Role)
        (hfree : ∀ earlier, l.roles.get? m.1 = some earlier → earlier = m.2.rounded) :
        (l.roles.insert m.1 m.2.rounded).get? c = some role ↔
          l.roles.get? c = some role ∨ m.1 = c ∧ m.2.rounded = role := by
      rw [ChannelMap.get?_insert]
      by_cases hc : c = m.1
      · subst hc
        simp only [↓reduceIte, Option.some.injEq, true_and]
        constructor
        · exact .inr
        · rintro (h | h)
          · exact (hfree role h).symm
          · exact h
      · simp [hc, Ne.symm hc]
    constructor
    · rintro ⟨u, ⟨hfree, rfl⟩, h⟩ c role
      rw [h, hinsert c role hfree, or_assoc]
    · intro h
      have hfree : ∀ earlier, l.roles.get? m.1 = some earlier → earlier = m.2.rounded := by
        intro earlier hearlier
        have hold := (h m.1 earlier).mpr (.inl hearlier)
        have hnew := (h m.1 m.2.rounded).mpr (.inr (.inl ⟨rfl, rfl⟩))
        exact Option.some.inj (hold.symm.trans hnew)
      refine ⟨_, ⟨hfree, rfl⟩, fun c role => ?_⟩
      rw [h, hinsert c role hfree, or_assoc]

/-- Which ledger takes in what is said depends on its members only. -/
theorem recordAll_congr {said' : List Statement} (h : ∀ m, m ∈ said' ↔ m ∈ said)
    (hl : l.recordAll s said = .ok l') :
    l.recordAll s said' = .ok l' := by
  have hentered (c : Channel) (role : Role) : Entered said' c role ↔ Entered said c role := by
    simp only [Entered, h]
  simpa only [recordAll_eq_ok_iff, hentered] using hl

theorem contains_iff : l.contains c ↔ ∃ role, l.roles.get? c = some role := ChannelMap.contains_iff

theorem contains_insert {m : Statement} :
    (⟨l.roles.insert m.1 role⟩ : Ledger).contains c ↔ c = m.1 ∨ l.contains c := by
  simp only [contains, ChannelMap.contains, ChannelMap.get?_insert]
  by_cases hc : c = m.1
  · simp [hc]
  · simp [hc]

def Follows (l : Ledger) (f : Channel → Role) : Prop :=
  ∀ c role, l.roles.get? c = some role → role = f c

theorem follows_empty (f : Channel → Role) : empty.Follows f := by
  intro c role h
  cases h

/-- Entries that follow the roles of the ledger are taken in. -/
theorem recordAll_follows {f : Channel → Role} (hl : l.Follows f)
    (hsaid : ∀ m ∈ said, m.2.rounded = f m.1) :
    ∃ l', l.recordAll s said = .ok l' ∧ l'.Follows f ∧
      ∀ c, l'.contains c ↔ l.contains c ∨ c ∈ said.map Prod.fst := by
  induction said generalizing l with
  | nil => exact ⟨l, rfl, hl, by simp⟩
  | cons m said ih =>
    have hm := hsaid m List.mem_cons_self
    have hfree : ∀ earlier, l.roles.get? m.1 = some earlier → earlier = m.2.rounded :=
      fun earlier h => (hl _ _ h).trans hm.symm
    have hnext : (⟨l.roles.insert m.1 m.2.rounded⟩ : Ledger).Follows f := by
      intro c role h
      simp only [ChannelMap.get?_insert] at h
      split at h
      · rename_i hc
        rw [hc, ← Option.some.inj h, hm]
      · exact hl c role h
    obtain ⟨l', hrecord, hfollows, hcontains⟩ :=
      ih hnext fun m' hm' => hsaid m' (List.mem_cons_of_mem _ hm')
    refine ⟨l', ?_, hfollows, fun c => ?_⟩
    · rw [recordAll, foldlM_cons_eq_ok]
      exact ⟨_, record_eq_ok_iff.mpr ⟨hfree, rfl⟩, hrecord⟩
    · rw [hcontains, contains_insert, List.map_cons, List.mem_cons, or_assoc, or_left_comm]

/-- An empty ledger takes in exactly the lists in which no two entries of one channel differ after
rounding. -/
theorem exists_recordAll_iff : (∃ l, empty.recordAll s said = .ok l) ↔
    ∀ m ∈ said, ∀ m' ∈ said, m.1 = m'.1 → m.2.rounded = m'.2.rounded := by
  constructor
  · rintro ⟨l, hl⟩ m hm m' hm' hchannel
    have hfirst := (recordAll_eq_ok_iff.mp hl m.1 _).mpr (.inr ⟨m, hm, rfl, rfl⟩)
    have hsecond := (recordAll_eq_ok_iff.mp hl m.1 _).mpr (.inr ⟨m', hm', hchannel.symm, rfl⟩)
    exact Option.some.inj (hfirst.symm.trans hsecond)
  · intro h
    -- Every entry follows the first one of its channel.
    let f (c : Channel) : Role := (said.find? fun m => m.1 = c).elim .runtime (·.2.rounded)
    have hsaid : ∀ m ∈ said, m.2.rounded = f m.1 := by
      intro m hm
      cases hfind : said.find? fun m' => m'.1 = m.1 with
      | none =>
        have hnot := List.find?_eq_none.mp hfind m hm
        simp at hnot
      | some m' =>
        have hchannel : m'.1 = m.1 := by simpa using List.find?_some hfind
        simp only [f, hfind, Option.elim_some]
        exact h m hm m' (List.mem_of_find?_eq_some hfind) hchannel.symm
    obtain ⟨l, hl, -⟩ := recordAll_follows (follows_empty f) hsaid
    exact ⟨l, hl⟩

theorem get?_constants (l : Ledger) (c : Channel) :
    l.constants.get? c = (l.roles.get? c).bind Role.constant? := by
  rw [constants, ChannelMap.get?_filterMap]

theorem get?_constants_eq_some_iff {x : Binary64} :
    l.constants.get? c = some x ↔ l.roles.get? c = some (.constant x) := by
  rw [get?_constants, Option.bind_eq_some_iff]
  constructor
  · rintro ⟨role, hrole, hx⟩
    cases role with
    | runtime => cases hx
    | constant y =>
      cases hx
      exact hrole
  · intro h
    exact ⟨_, h, rfl⟩

end Ledger

end DerivativeHeaders
