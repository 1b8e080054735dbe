import DerivativeHeaders.Header
import DerivativeHeaders.Proofs.Channel.Enumeration
import DerivativeHeaders.Proofs.Ledger

/-! # The roles of channels in a header

A channel is written by the functions of a header or is one of its constants.
-/
namespace DerivativeHeaders

open Ledger

theorem Signature.pairwise_channels (s : Signature) (v : Variant) :
    (s.channels v).Pairwise (· < ·) :=
  Channel.pairwise_enumerate _ _ _ _

namespace Header

variable {h : Header} {v : Variant} {c : Channel} {l : Ledger}

def role (h : Header) (c : Channel) : Role := (h.constants.get? c).elim .runtime .constant

theorem role_eq_constant_iff {x : Binary64} :
    h.role c = .constant x ↔ h.constants.get? c = some x := by
  rw [role]
  cases h.constants.get? c <;> simp

theorem role_eq_runtime_iff : h.role c = .runtime ↔ h.constants.get? c = none := by
  rw [role]
  cases h.constants.get? c <;> simp

/-- The constants of a ledger give every channel in it the role that it has there. -/
theorem role_of_ledger {role : Role} (hl : l.constants = h.constants)
    (hc : l.roles.get? c = some role) : h.role c = role := by
  rw [Header.role, ← hl, get?_constants, hc]
  cases role <;> rfl

theorem mem_emitted : c ∈ h.emitted v ↔ h.hasChannel v c ∧ h.constants.get? c = none := by
  rw [emitted, List.mem_filter, Signature.mem_channels, Bool.not_eq_true',
    ChannelMap.contains_eq_false_iff]

theorem nodup_emitted (h : Header) (v : Variant) : (h.emitted v).Nodup :=
  Channel.nodup_of_pairwise ((h.pairwise_channels v).sublist List.filter_sublist)

theorem mem_remarks {x : Channel × Binary64} :
    x ∈ h.remarks v ↔ h.hasChannel v x.1 ∧ h.constants.get? x.1 = some x.2 ∧
      x.2.isZero = false := by
  simp only [remarks, List.mem_filterMap]
  constructor
  · rintro ⟨c, hc, hx⟩
    cases hget : h.constants.get? c with
    | none => simp [hget] at hx
    | some y =>
      cases hzero : y.isZero with
      | true => simp [hget, hzero] at hx
      | false =>
        simp only [hget, hzero, Bool.false_eq_true, ↓reduceIte, Option.some.injEq] at hx
        subst hx
        exact ⟨Signature.mem_channels.mp hc, hget, hzero⟩
  · rintro ⟨hc, hget, hzero⟩
    exact ⟨x.1, Signature.mem_channels.mpr hc, by simp [hget, hzero]⟩

theorem mem_derivatives : c ∈ h.derivatives ↔ h.hasChannel h.widest c ∧ 0 < c.order := by
  rw [Signature.derivatives, List.mem_filter, Signature.mem_channels, decide_eq_true_eq]

end Header

end DerivativeHeaders
