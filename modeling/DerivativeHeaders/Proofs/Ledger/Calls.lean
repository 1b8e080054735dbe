import DerivativeHeaders.Proofs.Ledger

/-! # Calls to a ledger

A call says of a channel that it is computed at run time or that it is constant, and may be refused.
Calls are all accepted exactly if no two of them contradict each other, so neither their order nor
their number counts.
-/
namespace DerivativeHeaders

open Outcome

/-- Equality of numbers. No number equals `nan`, and the two zeros are equal. -/
def Binary64.SameNumber (x y : Binary64) : Prop := x ≠ nan ∧ (x = y ∨ x.isZero ∧ y.isZero)

namespace Binary64

theorem asPrinted_ne_nan {x : Binary64} (h : x ≠ nan) : x.asPrinted ≠ nan := by
  cases x with
  | nan => exact absurd rfl h
  | infinite negative => exact h
  | finite negative m =>
    intro heq
    have hfinite := isFinite_asPrinted (finite negative m)
    rw [heq] at hfinite
    cases hfinite

/-- Kept literals have one zero only. -/
theorem sameNumber_asPrinted_iff {x : Binary64} (hx : x ≠ nan) (y : Binary64) :
    x.asPrinted.SameNumber y.asPrinted ↔ x.asPrinted = y.asPrinted := by
  constructor
  · rintro ⟨-, heq | ⟨hxzero, hyzero⟩⟩
    · exact heq
    · rw [eq_zero_of_isZero (asPrinted_asPrinted x) hxzero,
        eq_zero_of_isZero (asPrinted_asPrinted y) hyzero]
  · exact fun heq => ⟨asPrinted_ne_nan hx, .inl heq⟩

end Binary64

namespace Ledger

variable {s : Signature} {l l' : Ledger} {c : Channel} {role : Role} {m : Statement}
  {calls : List Statement}

/-- The channels that are held as computed at run time. -/
def runtime (l : Ledger) : List Channel :=
  (l.roles.filterMap fun _ role => if role = .runtime then some () else none).keys

theorem mem_runtime : c ∈ l.runtime ↔ l.roles.get? c = some .runtime := by
  rw [runtime, ChannelMap.mem_keys_iff, ChannelMap.contains_iff]
  simp only [ChannelMap.get?_filterMap, Option.bind_eq_some_iff, Option.ite_none_right_eq_some]
  constructor
  · rintro ⟨_, role, hrole, rfl, -⟩
    exact hrole
  · exact fun h => ⟨(), .runtime, h, rfl, trivial⟩

/-- A call is refused for a role that the ledger holds already and that is another one. -/
theorem record_eq_error_iff {fault : Fault} : l.record s c role = .error fault ↔
    ∃ earlier, l.roles.get? c = some earlier ∧ earlier ≠ role.rounded ∧
      fault = .conflict (s.channelText c) earlier role.rounded := by
  rw [record]
  cases hc : l.roles.get? c with
  | none => simp
  | some earlier =>
    by_cases heq : earlier = role.rounded
    · simp [heq]
    · simp [heq, eq_comm]

/-- The ledger after a call. A refused call leaves it as it was. -/
def attempt (s : Signature) (l : Ledger) (m : Statement) : Ledger :=
  (l.record s m.1 m.2).toOption.getD l

def attemptAll (s : Signature) (l : Ledger) (calls : List Statement) : Ledger :=
  calls.foldl (attempt s) l

theorem attempt_of_ok (h : l.record s m.1 m.2 = .ok l') : l.attempt s m = l' := by
  rw [attempt, h]
  rfl

theorem attempt_of_error {fault : Fault} (h : l.record s m.1 m.2 = .error fault) :
    l.attempt s m = l := by
  rw [attempt, h]
  rfl

theorem attemptAll_append (s : Signature) (l : Ledger) (a b : List Statement) :
    l.attemptAll s (a ++ b) = (l.attemptAll s a).attemptAll s b := List.foldl_append

theorem attemptAll_of_recordAll (h : l.recordAll s calls = .ok l') : l.attemptAll s calls = l' := by
  induction calls generalizing l with
  | nil => exact foldlM_nil_eq_ok.mp h
  | cons m calls ih =>
    obtain ⟨next, hnext, hrest⟩ := foldlM_cons_eq_ok.mp h
    rw [attemptAll, List.foldl_cons, attempt_of_ok hnext]
    exact ih hrest

/-- A call adds no role but its own. -/
theorem get?_attempt (h : (l.attempt s m).roles.get? c = some role) :
    l.roles.get? c = some role ∨ m.1 = c ∧ m.2.rounded = role := by
  cases hrecord : l.record s m.1 m.2 with
  | error fault =>
    rw [attempt_of_error hrecord] at h
    exact .inl h
  | ok next =>
    rw [attempt_of_ok hrecord] at h
    obtain ⟨-, rfl⟩ := record_eq_ok_iff.mp hrecord
    rw [ChannelMap.get?_insert] at h
    split at h
    · rename_i hc
      exact .inr ⟨hc.symm, Option.some.inj h⟩
    · exact .inl h

/-- What a ledger holds after calls it held before, or some call says it. -/
theorem get?_attemptAll (h : (l.attemptAll s calls).roles.get? c = some role) :
    l.roles.get? c = some role ∨ Entered calls c role := by
  induction calls generalizing l with
  | nil => exact .inl h
  | cons m calls ih =>
    rw [entered_cons]
    rcases ih h with hrole | hentered
    · exact (get?_attempt hrole).imp_right .inl
    · exact .inr (.inr hentered)

theorem entered_runtime_iff : Entered calls c .runtime ↔ (c, .runtime) ∈ calls := by
  constructor
  · rintro ⟨⟨d, role⟩, hm, rfl, hrole⟩
    cases role with
    | runtime => exact hm
    | constant x => cases hrole
  · exact fun hm => ⟨_, hm, rfl, rfl⟩

theorem entered_constant_iff {x : Binary64} :
    Entered calls c (.constant x) ↔ ∃ y, (c, .constant y) ∈ calls ∧ x = y.asPrinted := by
  constructor
  · rintro ⟨⟨d, role⟩, hm, rfl, hrole⟩
    cases role with
    | runtime => cases hrole
    | constant y =>
      cases hrole
      exact ⟨y, hm, rfl⟩
  · rintro ⟨y, hm, rfl⟩
    exact ⟨_, hm, rfl, rfl⟩

/-- What the two stores of a ledger hold goes back to calls, and no channel is in both. -/
structure IsConsistent (calls : List Statement) (l : Ledger) : Prop where
  disjoint : ∀ c ∈ l.runtime, l.constants.contains c = false
  runtime : ∀ c ∈ l.runtime, (c, .runtime) ∈ calls
  constants : ∀ c x, l.constants.get? c = some x → ∃ y, (c, .constant y) ∈ calls ∧ x = y.asPrinted

theorem isConsistent_attemptAll (s : Signature) (calls : List Statement) :
    IsConsistent calls (empty.attemptAll s calls) := by
  have hentered {c : Channel} {role : Role}
      (h : (empty.attemptAll s calls).roles.get? c = some role) :
      Entered calls c role := by
    rcases get?_attemptAll h with hempty | hentered
    · cases hempty
    · exact hentered
  refine ⟨fun c hc => ?_, fun c hc => ?_, fun c x hx => ?_⟩
  · rw [ChannelMap.contains_eq_false_iff, get?_constants, mem_runtime.mp hc]
    rfl
  · exact entered_runtime_iff.mp (hentered (mem_runtime.mp hc))
  · exact entered_constant_iff.mp (hentered (get?_constants_eq_some_iff.mp hx))

/-- What a call contradicts in the two stores of a ledger. -/
def Contradicts (l : Ledger) (c : Channel) : Role → Prop
  | .runtime => l.constants.contains c
  | .constant x => c ∈ l.runtime ∨ ∃ y, l.constants.get? c = some y ∧ ¬ y.SameNumber x.asPrinted

def AvoidNan (calls : List Statement) : Prop := ∀ m ∈ calls, m.2 ≠ .constant .nan

/-- After calls, another call is refused exactly if it contradicts what is held. -/
theorem exists_record_eq_error_iff (h : IsConsistent calls l) (hnan : AvoidNan calls) :
    (∃ fault, l.record s c role = .error fault) ↔ l.Contradicts c role := by
  have hrefused : (∃ fault, l.record s c role = .error fault) ↔
      ∃ earlier, l.roles.get? c = some earlier ∧ earlier ≠ role.rounded := by
    simp only [record_eq_error_iff]
    constructor
    · rintro ⟨_, earlier, hearlier, hne, -⟩
      exact ⟨earlier, hearlier, hne⟩
    · rintro ⟨earlier, hearlier, hne⟩
      exact ⟨_, earlier, hearlier, hne, rfl⟩
  rw [hrefused]
  cases role with
  | runtime =>
    rw [Contradicts, ChannelMap.contains_iff]
    constructor
    · rintro ⟨earlier, hearlier, hne⟩
      cases earlier with
      | runtime => exact absurd rfl hne
      | constant x => exact ⟨x, get?_constants_eq_some_iff.mpr hearlier⟩
    · rintro ⟨x, hx⟩
      refine ⟨.constant x, get?_constants_eq_some_iff.mp hx, fun heq => ?_⟩
      cases heq
  | constant x =>
    -- What is held is a kept literal, so it is the same number only if it is the same literal.
    have hsame {y : Binary64} (hy : l.constants.get? c = some y) :
        y.SameNumber x.asPrinted ↔ Role.constant y = (Role.constant x).rounded := by
      obtain ⟨z, hz, rfl⟩ := h.constants c y hy
      have hne : z ≠ .nan := fun heq => hnan _ hz (congrArg Role.constant heq)
      rw [Binary64.sameNumber_asPrinted_iff hne, Role.rounded, Role.constant.injEq]
    constructor
    · rintro ⟨earlier, hearlier, hne⟩
      cases earlier with
      | runtime => exact .inl (mem_runtime.mpr hearlier)
      | constant y =>
        have hy := get?_constants_eq_some_iff.mpr hearlier
        exact .inr ⟨y, hy, fun heq => hne ((hsame hy).mp heq)⟩
    · rintro (hruntime | ⟨y, hy, hne⟩)
      · refine ⟨.runtime, mem_runtime.mp hruntime, fun heq => ?_⟩
        cases heq
      · exact ⟨.constant y, get?_constants_eq_some_iff.mp hy, fun heq => hne ((hsame hy).mpr heq)⟩

/-- A call that is accepted adds to the store of its role and to no other. -/
def Adds (l : Ledger) (c : Channel) (role : Role) (l' : Ledger) : Prop :=
  match role with
  | .runtime => (∀ d, d ∈ l'.runtime ↔ d = c ∨ d ∈ l.runtime) ∧ l'.constants = l.constants
  | .constant x =>
    (∀ d, d ∈ l'.runtime ↔ d ∈ l.runtime) ∧ l'.constants = l.constants.insert c x.asPrinted

theorem adds_of_record (h : l.record s c role = .ok l') : l.Adds c role l' := by
  obtain ⟨hfree, rfl⟩ := record_eq_ok_iff.mp h
  cases role with
  | runtime =>
    refine ⟨fun d => ?_, ChannelMap.ext fun d => ?_⟩
    · rw [mem_runtime, mem_runtime, ChannelMap.get?_insert]
      by_cases hd : d = c
      · simp [hd, Role.rounded]
      · simp [hd]
    · rw [get?_constants, get?_constants, ChannelMap.get?_insert]
      by_cases hd : d = c
      · subst hd
        cases hearlier : l.roles.get? d with
        | none => simp [Role.rounded, Role.constant?]
        | some earlier => simp [hfree earlier hearlier, Role.rounded, Role.constant?]
      · simp [hd]
  | constant x =>
    refine ⟨fun d => ?_, ChannelMap.ext fun d => ?_⟩
    · rw [mem_runtime, mem_runtime, ChannelMap.get?_insert]
      by_cases hd : d = c
      · subst hd
        simp only [↓reduceIte, Role.rounded, Option.some.injEq, reduceCtorEq, false_iff]
        intro hruntime
        cases hfree _ hruntime
      · simp [hd]
    · rw [get?_constants, ChannelMap.get?_insert, ChannelMap.get?_insert, get?_constants]
      by_cases hd : d = c
      · simp [hd, Role.rounded, Role.constant?]
      · simp [hd]

/-- No two calls contradict each other. -/
structure AreCompatible (calls : List Statement) : Prop where
  roles : ∀ c x, (c, .runtime) ∈ calls → (c, .constant x) ∉ calls
  literals : ∀ c x y, (c, .constant x) ∈ calls → (c, .constant y) ∈ calls →
    x.asPrinted.SameNumber y.asPrinted

theorem areCompatible_iff (hnan : AvoidNan calls) : AreCompatible calls ↔
    ∀ m ∈ calls, ∀ m' ∈ calls, m.1 = m'.1 → m.2.rounded = m'.2.rounded := by
  have hsame {c : Channel} {x : Binary64} (hx : (c, .constant x) ∈ calls) (y : Binary64) :
      x.asPrinted.SameNumber y.asPrinted ↔ x.asPrinted = y.asPrinted :=
    Binary64.sameNumber_asPrinted_iff (fun heq => hnan _ hx (congrArg Role.constant heq)) y
  constructor
  · rintro h ⟨c, role⟩ hm ⟨_, role'⟩ hm' rfl
    cases role with
    | runtime =>
      cases role' with
      | runtime => rfl
      | constant y => exact absurd hm' (h.roles _ y hm)
    | constant x =>
      cases role' with
      | runtime => exact absurd hm (h.roles _ x hm')
      | constant y => exact congrArg Role.constant ((hsame hm y).mp (h.literals _ x y hm hm'))
  · intro h
    refine ⟨fun c x hruntime hconstant => ?_, fun c x y hx hy => ?_⟩
    · cases h _ hruntime _ hconstant rfl
    · exact (hsame hx y).mpr (Role.constant.inj (h _ hx _ hy rfl))

/-- Calls to an empty ledger leave it consistent, whether some of them are refused or not. A call
that contradicts what is held is refused, and is then as if it had not been made; another one adds
what it says and nothing else. No call is refused exactly if no two calls contradict each other, and
then the ledger is the same for the calls in any order and any number. -/
theorem attemptAll_consistent (s : Signature) {calls : List Statement} (hnan : AvoidNan calls) :
    IsConsistent calls (empty.attemptAll s calls) ∧
      (∀ m : Statement,
        ((empty.attemptAll s calls).Contradicts m.1 m.2 →
          (∃ fault, (empty.attemptAll s calls).record s m.1 m.2 = .error fault) ∧
          ∀ later,
            empty.attemptAll s (calls ++ m :: later) = empty.attemptAll s (calls ++ later)) ∧
        (¬ (empty.attemptAll s calls).Contradicts m.1 m.2 →
          ∃ l, (empty.attemptAll s calls).record s m.1 m.2 = .ok l ∧
            (empty.attemptAll s calls).Adds m.1 m.2 l)) ∧
      ((∃ l, empty.recordAll s calls = .ok l) ↔ AreCompatible calls) ∧
      ∀ l, empty.recordAll s calls = .ok l → empty.attemptAll s calls = l ∧
        ∀ calls' : List Statement, (∀ m, m ∈ calls' ↔ m ∈ calls) →
          empty.recordAll s calls' = .ok l := by
  have hconsistent := isConsistent_attemptAll s calls
  refine ⟨hconsistent, fun m => ?_, ?_,
    fun l hl => ⟨attemptAll_of_recordAll hl, fun calls' h => recordAll_congr h hl⟩⟩
  · rw [← exists_record_eq_error_iff (s := s) hconsistent hnan]
    constructor
    · rintro ⟨fault, hfault⟩
      refine ⟨⟨fault, hfault⟩, fun later => ?_⟩
      rw [attemptAll_append, attemptAll_append, attemptAll, List.foldl_cons,
        attempt_of_error hfault]
      rfl
    · intro hnone
      cases hrecord : (empty.attemptAll s calls).record s m.1 m.2 with
      | error fault => exact absurd ⟨fault, hrecord⟩ hnone
      | ok l => exact ⟨l, rfl, adds_of_record hrecord⟩
  · rw [exists_recordAll_iff, areCompatible_iff hnan]

def squareSignature : Signature :=
  ⟨"f", [⟨"double", "x"⟩], [⟨"double", "y"⟩], [.plain, ⟨true, false⟩]⟩

/-- The least positive number. It is kept as zero. -/
def leastLiteral : Binary64 := .finite false ⟨1, representable_of_lt (by decide)⟩

def squareCalls : List Statement :=
  [(.value 0, .runtime), (.first 0 0, .constant leastLiteral), (.first 0 0, .constant .zero)]

/-- The derivative is said to be zero in two ways, so it cannot be computed at run time, but `y`
can. -/
theorem attemptAll_consistent_square : AvoidNan squareCalls ∧
    ((empty.attemptAll squareSignature squareCalls).Contradicts (.first 0 0) .runtime ∧
      ∃ fault, (empty.attemptAll squareSignature squareCalls).record squareSignature
      (.first 0 0) .runtime = .error fault) ∧ AreCompatible squareCalls ∧
    ∃ l, empty.recordAll squareSignature squareCalls = .ok l ∧
      empty.recordAll squareSignature (squareCalls.reverse ++ squareCalls) = .ok l := by
  have hnan : AvoidNan squareCalls := by
    simp only [AvoidNan, squareCalls, List.forall_mem_cons]
    decide
  have hcontradicts :
      (empty.attemptAll squareSignature squareCalls).Contradicts (.first 0 0) .runtime := by
    rw [Contradicts]
    decide +kernel
  have hok : (empty.recordAll squareSignature squareCalls).isOk := by decide +kernel
  obtain ⟨-, hcalls, hcompatible, horder⟩ := attemptAll_consistent squareSignature hnan
  obtain ⟨l, hl⟩ := exists_of_isOk hok
  exact ⟨hnan, ⟨hcontradicts, ((hcalls (.first 0 0, .runtime)).1 hcontradicts).1⟩,
    hcompatible.mp ⟨l, hl⟩, l, hl, (horder l hl).2 _ fun m => by simp⟩

end Ledger

end DerivativeHeaders
