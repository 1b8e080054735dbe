import DerivativeHeaders.Proofs.Header.Invariant
import DerivativeHeaders.Proofs.Token.Word

/-! # Names that are read are words

The names and types of a header that was read from a text or from declarations are words of it,
so none of them is a keyword.
-/
namespace DerivativeHeaders

open Outcome

def Variable.AvoidsKeywords (x : Variable) : Prop :=
  isReserved x.type = false ∧ isReserved x.name = false

def Signature.AvoidsKeywords (s : Signature) : Prop := ∀ x ∈ s.inputs ++ s.outputs, x.AvoidsKeywords

theorem isReserved_of_map_eq {cs : List Char} {ts : List Token}
    (h : (tokensOf cs).map Located.value = ts) {name : String}
    (hname : .word name ∈ ts) : isReserved name = false := by
  rw [← h] at hname
  obtain ⟨x, hx, hvalue⟩ := List.mem_map.mp hname
  exact isReserved_of_mem_tokensOf hx hvalue

namespace Field

def toVariable? : Field → Option Variable
  | input x => some x
  | output type name => some ⟨type, name⟩
  | constant .. => none

theorem ofInput_eq_ok_iff {line : Nat} {passing : Passing} {type name : String} {field : Field} :
    ofInput line passing type name = .ok field ↔ Passing.ofName type = passing ∧
      field = .input ⟨type, name⟩ := by
  rw [ofInput]
  by_cases hpassing : Passing.ofName type = passing
  · simp [hpassing, eq_comm]
  · simp [hpassing]

theorem avoidsKeywords_of_ofTokens {line : Nat} {text : List Char} {ts : List Token} {field : Field}
    {x : Variable}
    (hwords : ∀ name, .word name ∈ ts → isReserved name = false)
    (h : ofTokens line text ts = .ok field)
    (hx : field.toVariable? = some x) : x.AvoidsKeywords := by
  unfold ofTokens at h
  split at h
  · rename_i type name
    obtain ⟨-, rfl⟩ := ofInput_eq_ok_iff.mp h
    cases hx
    exact ⟨hwords type (by simp), hwords name (by simp)⟩
  · rename_i type name
    obtain ⟨-, rfl⟩ := ofInput_eq_ok_iff.mp h
    cases hx
    exact ⟨hwords type (by simp), hwords name (by simp)⟩
  · rename_i type name
    cases h
    cases hx
    exact ⟨hwords type (by simp), hwords name (by simp)⟩
  · cases h
    cases hx
  · cases h

theorem avoidsKeywords_of_ofText {line : Nat} {text : List Char} {field : Field} {x : Variable}
    (h : ofText line text = .ok field) (hx : field.toVariable? = some x) : x.AvoidsKeywords := by
  rw [ofText] at h
  split at h
  · cases h
  · exact avoidsKeywords_of_ofTokens (fun name hname => isReserved_of_map_eq rfl hname) h hx

end Field

namespace Prototype

theorem isReserved_of_readOpening {l : Line} {function : String} {rest : List Char}
    (h : readOpening l = .ok (function, rest)) : isReserved function = false := by
  rw [readOpening] at h
  split at h
  · rename_i first name second paren more heq
    cases h
    have hmem : ⟨.word function, second⟩ ∈ tokensOf l.text := by simp [heq]
    exact isReserved_of_mem_tokensOf hmem rfl
  · cases h

/-- The names in a prototype are words of its lines. -/
theorem avoidsKeywords_of_ofBlock {b : Block} {p : Prototype} (h : ofBlock b = .ok p) :
    isReserved p.function = false ∧ ∀ x ∈ p.fields, ∀ y, x.2.toVariable? = some y →
      y.AvoidsKeywords := by
  obtain ⟨first, rest, -, h⟩ := ofBlock_eq_ok_iff.mp h
  obtain ⟨text, lines, hopening, -, hfields⟩ := ofLines_eq_ok_iff.mp h
  refine ⟨isReserved_of_readOpening hopening, fun x hx y hy => ?_⟩
  obtain ⟨l, -, hl⟩ := forall₂_exists_left (mapM_eq_ok_iff.mp hfields) hx
  obtain ⟨field, hfield, rfl⟩ := map_eq_ok.mp hl
  exact Field.avoidsKeywords_of_ofText hfield hy

theorem mem_inputs {p : Prototype} {x : Variable} (hx : x ∈ p.inputs) :
    ∃ y ∈ p.fields, y.2.toVariable? = some x := by
  obtain ⟨⟨line, field⟩, hy, hfield⟩ := List.mem_filterMap.mp hx
  cases field with
  | input z => exact ⟨_, hy, hfield⟩
  | output type name => cases hfield
  | constant name z => cases hfield

theorem mem_outputs {p : Prototype} {x : Variable} (hx : x ∈ p.outputs) :
    ∃ y ∈ p.fields, y.2.toVariable? = some x := by
  obtain ⟨⟨line, field⟩, hy, hfield⟩ := List.mem_filterMap.mp hx
  cases field with
  | input z => cases hfield
  | output type name => exact ⟨_, hy, hfield⟩
  | constant name z => cases hfield

end Prototype

namespace Header

variable {h : Header}

theorem linear_avoidsKeywords :
    ∀ x ∈ [(⟨"double", "x"⟩ : Variable)] ++ [⟨"double", "y"⟩], x.AvoidsKeywords := by
  simp only [List.cons_append, List.nil_append, List.forall_mem_cons, Variable.AvoidsKeywords]
  decide

theorem avoidsKeywords_of_ofParts {name : String} {inputs outputs : List Variable}
    {variants : List Variant}
    {constants : ChannelMap Binary64} (hh : ofParts name inputs outputs variants constants = .ok h)
    (hx : ∀ x ∈ inputs ++ outputs, x.AvoidsKeywords) : h.AvoidsKeywords := by
  obtain ⟨vs, -, hsignature, -⟩ := Signature.ofParts_eq_ok_iff.mp (ofParts_eq_ok_iff.mp hh).1
  rw [Signature.AvoidsKeywords, hsignature]
  exact hx

theorem name_of_ofParts {name : String} {inputs outputs : List Variable} {variants : List Variant}
    {constants : ChannelMap Binary64}
    (hh : ofParts name inputs outputs variants constants = .ok h) : h.name = name := by
  obtain ⟨vs, -, hsignature, -⟩ := Signature.ofParts_eq_ok_iff.mp (ofParts_eq_ok_iff.mp hh).1
  exact congrArg Signature.name hsignature

theorem avoidsKeywords_of_ofText {text : String} (ht : ofText text = .ok h) :
    isReserved h.name = false ∧ h.AvoidsKeywords := by
  obtain ⟨blocks, -, hblocks⟩ := ofText_eq_ok_iff.mp ht
  obtain ⟨first, rest, p, l, -, -, hp, -, hs, -⟩ := ofBlocks_eq_ok_iff.mp hblocks
  obtain ⟨vs, -, hsignature, -⟩ := Signature.ofParts_eq_ok_iff.mp hs
  obtain ⟨hfunction, hvariables⟩ := Prototype.avoidsKeywords_of_ofBlock hp
  rw [Signature.AvoidsKeywords, hsignature]
  refine ⟨hfunction, fun x hx => ?_⟩
  rcases List.mem_append.mp hx with hx | hx
  · obtain ⟨y, hy, hvariable⟩ := Prototype.mem_inputs hx
    exact hvariables y hy x hvariable
  · obtain ⟨y, hy, hvariable⟩ := Prototype.mem_outputs hx
    exact hvariables y hy x hvariable

end Header

end DerivativeHeaders
