/-! # Channels

A channel is one value that a function writes: an output, its partial derivative by one input,
or its second partial derivative by an unordered pair of inputs. Channels are ordered by
derivative order, then by output, then by inputs. -/
namespace DerivativeHeaders

inductive Channel where
  | value (output : Nat)
  | first (output input : Nat)
  | second (output a b : Nat)
deriving DecidableEq

namespace Channel

/-- The second derivative with its inputs in ascending order. -/
def ofPair (output a b : Nat) : Channel := second output (min a b) (max a b)

def output : Channel → Nat
  | value o | first o _ | second o _ _ => o

def order : Channel → Nat
  | value _ => 0
  | first .. => 1
  | second .. => 2

def isCanonical : Channel → Bool
  | second _ a b => a ≤ b
  | _ => true

/-- The same channel with the inputs of a second derivative in ascending order. -/
def canonical : Channel → Channel
  | second o a b => ofPair o a b
  | c => c

def fits (inputs outputs : Nat) : Channel → Bool
  | value o => o < outputs
  | first o i => o < outputs && i < inputs
  | second o a b => o < outputs && a < inputs && b < inputs

def display : Channel → String
  | value o => s!"({o})"
  | first o i => s!"({o}, {i})"
  | second o a b => s!"({o}, {a}, {b})"

/-- The order of channels in a prototype. -/
def Before : Channel → Channel → Prop
  | value o, value o' => o < o'
  | value _, first .. | value _, second .. | first .., second .. => True
  | first o i, first o' i' => o < o' ∨ o = o' ∧ i < i'
  | second o a b, second o' a' b' => o < o' ∨ o = o' ∧ (a < a' ∨ a = a' ∧ b < b')
  | first .., value _ | second .., value _ | second .., first .. => False

instance : LT Channel := ⟨Before⟩

theorem lt_def {c d : Channel} : c < d ↔ Before c d := Iff.rfl

instance (c d : Channel) : Decidable (c < d) :=
  match c, d with
  | value o, value o' => inferInstanceAs (Decidable (o < o'))
  | first o i, first o' i' => inferInstanceAs (Decidable (o < o' ∨ o = o' ∧ i < i'))
  | second o a b, second o' a' b' =>
    inferInstanceAs (Decidable (o < o' ∨ o = o' ∧ (a < a' ∨ a = a' ∧ b < b')))
  | value _, first .. | value _, second .. | first .., second .. => isTrue trivial
  | first .., value _ | second .., value _ | second .., first .. => isFalse id

theorem lt_irrefl (c : Channel) : ¬ c < c := by
  cases c <;> simp [lt_def, Before]

theorem lt_trans {c d e : Channel} (h : c < d) (h' : d < e) : c < e := by
  cases c <;> cases d <;> cases e <;> simp_all only [lt_def, Before] <;> omega

theorem lt_or_eq_or_gt (c d : Channel) : c < d ∨ c = d ∨ d < c := by
  cases c <;> cases d <;> simp [lt_def, Before] <;> omega

theorem lt_asymm {c d : Channel} (h : c < d) : ¬ d < c := fun h' => lt_irrefl c (lt_trans h h')

theorem ne_of_lt {c d : Channel} (h : c < d) : c ≠ d := fun e => lt_irrefl d (e ▸ h)

end Channel

end DerivativeHeaders
