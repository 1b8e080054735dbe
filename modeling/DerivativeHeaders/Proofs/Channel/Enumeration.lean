import DerivativeHeaders.Channel.Enumeration
import Mathlib.Data.List.Nodup
import Mathlib.Data.List.Range
import Mathlib.Tactic.Ring

/-! # The order and the length of an enumeration

An enumeration lists its channels in ascending order, so it has each of them once. Its length is a
polynomial in the counts of inputs and outputs, and that is what is counted in words as long as no
word overflows.
-/
namespace DerivativeHeaders.Channel

theorem pairwise_values (outputs : Nat) : (values outputs).Pairwise (· < ·) := by
  rw [values, List.pairwise_map]
  exact List.pairwise_lt_range

theorem pairwise_firsts (inputs outputs : Nat) : (firsts inputs outputs).Pairwise (· < ·) := by
  rw [firsts, List.pairwise_flatMap]
  constructor
  · intro o _
    rw [List.pairwise_map]
    exact List.pairwise_lt_range.imp fun h => .inr ⟨rfl, h⟩
  · refine List.pairwise_lt_range.imp fun {o o'} h => ?_
    intro c hc d hd
    obtain ⟨i, -, rfl⟩ := List.mem_map.mp hc
    obtain ⟨j, -, rfl⟩ := List.mem_map.mp hd
    exact .inl h

theorem pairwise_seconds (inputs outputs : Nat) : (seconds inputs outputs).Pairwise (· < ·) := by
  rw [seconds, List.pairwise_flatMap]
  constructor
  · intro o _
    rw [List.pairwise_flatMap]
    constructor
    · intro a _
      rw [List.pairwise_map]
      exact (List.pairwise_lt_range' 1).imp fun h => .inr ⟨rfl, .inr ⟨rfl, h⟩⟩
    · refine List.pairwise_lt_range.imp fun {a a'} h => ?_
      intro c hc d hd
      obtain ⟨i, -, rfl⟩ := List.mem_map.mp hc
      obtain ⟨j, -, rfl⟩ := List.mem_map.mp hd
      exact .inr ⟨rfl, .inl h⟩
  · refine List.pairwise_lt_range.imp fun {o o'} h => ?_
    intro c hc d hd
    obtain ⟨a, -, hc⟩ := List.mem_flatMap.mp hc
    obtain ⟨i, -, rfl⟩ := List.mem_map.mp hc
    obtain ⟨b, -, hd⟩ := List.mem_flatMap.mp hd
    obtain ⟨j, -, rfl⟩ := List.mem_map.mp hd
    exact .inl h

theorem pairwise_enumerate (inputs outputs : Nat) (firstOrder secondOrder : Bool) :
    (enumerate inputs outputs firstOrder secondOrder).Pairwise (· < ·) := by
  have hif {b : Bool} {cs : List Channel} (hcs : cs.Pairwise (· < ·)) :
      (if b then cs else []).Pairwise (· < ·) := by
    split
    · exact hcs
    · exact List.Pairwise.nil
  have hmem {b : Bool} {cs : List Channel} {c : Channel}
      (hc : c ∈ if b then cs else []) : c ∈ cs := by
    split at hc
    · exact hc
    · cases hc
  rw [enumerate, List.pairwise_append, List.pairwise_append]
  refine ⟨⟨pairwise_values outputs, hif (pairwise_firsts inputs outputs), ?_⟩,
    hif (pairwise_seconds inputs outputs), ?_⟩
  · intro c hc d hd
    obtain ⟨o, -, rfl⟩ := mem_values.mp hc
    obtain ⟨o', -, i, -, rfl⟩ := mem_firsts.mp (hmem hd)
    trivial
  · intro c hc d hd
    obtain ⟨o', -, a, b, -, -, rfl⟩ := mem_seconds.mp (hmem hd)
    rcases List.mem_append.mp hc with hc | hc
    · obtain ⟨o, -, rfl⟩ := mem_values.mp hc
      trivial
    · obtain ⟨o, -, i, -, rfl⟩ := mem_firsts.mp (hmem hc)
      trivial

theorem nodup_of_pairwise {cs : List Channel} (h : cs.Pairwise (· < ·)) : cs.Nodup := h.imp ne_of_lt

variable {inputs outputs : Nat} {firstOrder secondOrder : Bool}

theorem length_values (outputs : Nat) : (values outputs).length = outputs := by
  rw [values, List.length_map, List.length_range]

theorem length_firsts (inputs outputs : Nat) :
    (firsts inputs outputs).length = outputs * inputs := by
  rw [firsts]
  induction outputs with
  | zero => simp
  | succ outputs ih =>
    rw [List.range_succ, List.flatMap_append, List.length_append, ih, List.flatMap_singleton,
      List.length_map, List.length_range, Nat.succ_mul]

/-- The pairs of an output whose smaller input is one of the first `k`. -/
theorem two_mul_length_pairs (output : Nat) {k : Nat} (h : k ≤ inputs) :
    2 * ((List.range k).flatMap fun a =>
        (List.range' a (inputs - a)).map (second output a)).length + k * k =
      2 * (k * inputs) + k := by
  induction k with
  | zero => simp
  | succ k ih =>
    have ih := ih (Nat.le_of_succ_le h)
    have hsquare : (k + 1) * (k + 1) = k * k + 2 * k + 1 := by ring
    rw [List.range_succ, List.flatMap_append, List.length_append, List.flatMap_singleton,
      List.length_map, List.length_range', hsquare, Nat.succ_mul k inputs]
    omega

theorem two_mul_length_seconds (inputs outputs : Nat) :
    2 * (seconds inputs outputs).length = outputs * inputs * (inputs + 1) := by
  rw [seconds]
  induction outputs with
  | zero => simp
  | succ outputs ih =>
    have hpairs := two_mul_length_pairs outputs (Nat.le_refl inputs)
    have hproduct : (outputs + 1) * inputs * (inputs + 1) =
        outputs * inputs * (inputs + 1) + inputs * inputs + inputs := by ring
    rw [List.range_succ, List.flatMap_append, List.length_append, Nat.mul_add, ih,
      List.flatMap_singleton, hproduct]
    omega

/-- The number of channels in closed form. The division leaves no remainder. -/
def size (inputs outputs : Nat) (firstOrder secondOrder : Bool) : Nat :=
  outputs + (if firstOrder then outputs * inputs else 0) +
    (if secondOrder then outputs * inputs * (inputs + 1) / 2 else 0)

theorem length_enumerate (inputs outputs : Nat) (firstOrder secondOrder : Bool) :
    (enumerate inputs outputs firstOrder secondOrder).length =
      size inputs outputs firstOrder secondOrder := by
  have hseconds : (seconds inputs outputs).length = outputs * inputs * (inputs + 1) / 2 := by
    rw [← two_mul_length_seconds, Nat.mul_div_cancel_left _ Nat.two_pos]
  rw [enumerate, size, List.length_append, List.length_append, length_values]
  congr 2
  · cases firstOrder with
    | true => exact length_firsts inputs outputs
    | false => rfl
  · cases secondOrder with
    | true => exact hseconds
    | false => rfl

/-- The counts are words of 64 bits, and so is every step from them to the length. -/
structure CountFits (inputs outputs : Nat) (firstOrder secondOrder : Bool) : Prop where
  isWord : inputs < UInt64.size
  product : secondOrder → inputs + 1 < UInt64.size ∧ outputs * inputs * (inputs + 1) < UInt64.size
  total : size inputs outputs firstOrder secondOrder < UInt64.size

section Words

variable {m n : UInt64}

theorem toNat_add_of_lt (h : m.toNat + n.toNat < UInt64.size) :
    (m + n).toNat = m.toNat + n.toNat := by
  rw [UInt64.toNat_add]
  exact Nat.mod_eq_of_lt h

theorem toNat_mul_of_lt (h : m.toNat * n.toNat < UInt64.size) :
    (m * n).toNat = m.toNat * n.toNat := by
  rw [UInt64.toNat_mul]
  exact Nat.mod_eq_of_lt h

end Words

theorem toNat_firsts {m n : UInt64}
    (h : (if firstOrder then n.toNat * m.toNat else 0) < UInt64.size) :
    (if firstOrder then n * m else 0).toNat = if firstOrder then n.toNat * m.toNat else 0 := by
  cases firstOrder with
  | true => exact toNat_mul_of_lt h
  | false => rfl

theorem toNat_seconds {m n : UInt64} (hnext : secondOrder → m.toNat + 1 < UInt64.size)
    (hproduct : secondOrder → n.toNat * m.toNat * (m.toNat + 1) < UInt64.size) :
    (if secondOrder then n * m * (m + 1) / 2 else 0).toNat =
      if secondOrder then n.toNat * m.toNat * (m.toNat + 1) / 2 else 0 := by
  cases secondOrder with
  | false => rfl
  | true =>
    have hsucc : (m + 1).toNat = m.toNat + 1 := toNat_add_of_lt (hnext rfl)
    have hpairs : (n * m).toNat = n.toNat * m.toNat :=
      toNat_mul_of_lt
        (Nat.lt_of_le_of_lt (Nat.le_mul_of_pos_right _ (Nat.succ_pos _)) (hproduct rfl))
    have htriples : (n * m * (m + 1)).toNat = n.toNat * m.toNat * (m.toNat + 1) := by
      rw [toNat_mul_of_lt, hpairs, hsucc]
      rw [hpairs, hsucc]
      exact hproduct rfl
    rw [if_pos rfl, if_pos rfl, UInt64.toNat_div, htriples]
    rfl

theorem count_eq_size (h : CountFits inputs outputs firstOrder secondOrder) :
    count inputs outputs firstOrder secondOrder = size inputs outputs firstOrder secondOrder := by
  have htotal := h.total
  rw [size] at htotal
  have hm : (UInt64.ofNat inputs).toNat = inputs := UInt64.toNat_ofNat_of_lt' h.isWord
  have hn : (UInt64.ofNat outputs).toNat = outputs := UInt64.toNat_ofNat_of_lt' (by omega)
  have hfirsts : (if firstOrder then UInt64.ofNat outputs * UInt64.ofNat inputs else 0).toNat =
      if firstOrder then outputs * inputs else 0 := by
    rw [toNat_firsts, hm, hn]
    rw [hm, hn]
    omega
  have hseconds :
      (if secondOrder then UInt64.ofNat outputs * .ofNat inputs * (.ofNat inputs + 1) / 2
        else 0).toNat = if secondOrder then outputs * inputs * (inputs + 1) / 2 else 0 := by
    rw [toNat_seconds, hm, hn]
    · rw [hm]
      exact fun hs => (h.product hs).1
    · rw [hm, hn]
      exact fun hs => (h.product hs).2
  have hsum :
      (UInt64.ofNat outputs +
        (if firstOrder then UInt64.ofNat outputs * .ofNat inputs else 0)).toNat =
        outputs + if firstOrder then outputs * inputs else 0 := by
    rw [toNat_add_of_lt, hn, hfirsts]
    rw [hn, hfirsts]
    omega
  rw [count, countWords, toNat_add_of_lt, hsum, hseconds, size]
  rw [hsum, hseconds]
  exact htotal

/-- An enumeration is in ascending order, has the canonical channels of the wanted orders that fit
and no other, and is as long as was counted. -/
theorem enumerate_exact (inputs outputs : Nat) (firstOrder secondOrder : Bool) :
    (enumerate inputs outputs firstOrder secondOrder).Pairwise (· < ·) ∧
      (enumerate inputs outputs firstOrder secondOrder).Nodup ∧
      (∀ c, c ∈ enumerate inputs outputs firstOrder secondOrder ↔ c.fits inputs outputs ∧
        c.isCanonical ∧ (c.order = 0 ∨ c.order = 1 ∧ firstOrder ∨ c.order = 2 ∧ secondOrder)) ∧
      (CountFits inputs outputs firstOrder secondOrder →
        (enumerate inputs outputs firstOrder secondOrder).length =
          count inputs outputs firstOrder secondOrder) := by
  have hpairwise := pairwise_enumerate inputs outputs firstOrder secondOrder
  refine ⟨hpairwise, nodup_of_pairwise hpairwise, fun c => ?_, fun hfits => ?_⟩
  · rw [mem_enumerate]
    cases c <;> simp [isEnabled, order]
  · rw [length_enumerate, count_eq_size hfits]

/-- The product that is halved is just below the limit. -/
theorem enumerate_exact_millions : CountFits 3000000 2000000 true true ∧
    (enumerate 3000000 2000000 true true).length = 9000009000002000000 := by
  have hfits : CountFits 3000000 2000000 true true :=
    ⟨by decide, fun _ => ⟨by decide, by decide⟩, by decide⟩
  have hcount : count 3000000 2000000 true true = 9000009000002000000 := by decide +kernel
  obtain ⟨-, -, -, hlength⟩ := enumerate_exact 3000000 2000000 true true
  exact ⟨hfits, (hlength hfits).trans hcount⟩

end DerivativeHeaders.Channel
