import DerivativeHeaders.Channel

/-! # Enumeration of channels

All channels of a function with given counts of inputs and outputs, in ascending order, and
their number in closed form, as a word of 64 bits. -/
namespace DerivativeHeaders.Channel

def values (outputs : Nat) : List Channel := (List.range outputs).map value

def firsts (inputs outputs : Nat) : List Channel :=
  (List.range outputs).flatMap fun o => (List.range inputs).map (first o)

def seconds (inputs outputs : Nat) : List Channel :=
  (List.range outputs).flatMap fun o =>
    (List.range inputs).flatMap fun a => (List.range' a (inputs - a)).map (second o a)

def enumerate (inputs outputs : Nat) (firstOrder secondOrder : Bool) : List Channel :=
  values outputs ++ (if firstOrder then firsts inputs outputs else []) ++
    (if secondOrder then seconds inputs outputs else [])

/-- Whether a channel of this derivative order is listed. -/
def isEnabled (firstOrder secondOrder : Bool) : Channel → Bool
  | value _ => true
  | first .. => firstOrder
  | second .. => secondOrder

theorem mem_values {outputs : Nat} {c : Channel} :
    c ∈ values outputs ↔ ∃ o < outputs, c = value o := by
  simp only [values, List.mem_map, List.mem_range]
  exact exists_congr fun o => and_congr_right fun _ => eq_comm

theorem mem_firsts {inputs outputs : Nat} {c : Channel} :
    c ∈ firsts inputs outputs ↔ ∃ o < outputs, ∃ i < inputs, c = first o i := by
  simp only [firsts, List.mem_flatMap, List.mem_map, List.mem_range]
  exact exists_congr fun o => and_congr_right fun _ =>
    exists_congr fun i => and_congr_right fun _ => eq_comm

theorem mem_seconds {inputs outputs : Nat} {c : Channel} :
    c ∈ seconds inputs outputs ↔
      ∃ o < outputs, ∃ a b, a ≤ b ∧ b < inputs ∧ c = second o a b := by
  simp only [seconds, List.mem_flatMap, List.mem_map, List.mem_range, List.mem_range'_1]
  refine exists_congr fun o => and_congr_right fun _ => ⟨?_, ?_⟩
  · rintro ⟨a, ha, b, hb, rfl⟩
    exact ⟨a, b, hb.1, by omega, rfl⟩
  · rintro ⟨a, b, hab, hb, rfl⟩
    exact ⟨a, by omega, b, by omega, rfl⟩

/-- The channels in an enumeration are the canonical ones of an enabled order that fit. -/
theorem mem_enumerate {inputs outputs : Nat} {firstOrder secondOrder : Bool} {c : Channel} :
    c ∈ enumerate inputs outputs firstOrder secondOrder ↔
      c.fits inputs outputs ∧ c.isCanonical ∧ c.isEnabled firstOrder secondOrder := by
  have hif : ∀ (b : Bool) (cs : List Channel), c ∈ (if b then cs else []) ↔ b ∧ c ∈ cs := by
    intro b cs
    cases b <;> simp
  simp only [enumerate, List.mem_append, hif, mem_values, mem_firsts, mem_seconds]
  cases c with
  | value o => simp [fits, isCanonical, isEnabled]
  | first o i => simp [fits, isCanonical, isEnabled]; grind
  | second o a b => simp [fits, isCanonical, isEnabled]; grind

/-- The length of an enumeration, counted in words of 64 bits. -/
def countWords (inputs outputs : UInt64) (firstOrder secondOrder : Bool) : UInt64 :=
  outputs + (if firstOrder then outputs * inputs else 0) +
    (if secondOrder then outputs * inputs * (inputs + 1) / 2 else 0)

def count (inputs outputs : Nat) (firstOrder secondOrder : Bool) : Nat :=
  (countWords (.ofNat inputs) (.ofNat outputs) firstOrder secondOrder).toNat

end DerivativeHeaders.Channel
