import DerivativeHeaders.Ledger

/-! # Headers

A header is a signature and the derivatives that are known constants. A constant channel has no
parameter in any variant. -/
namespace DerivativeHeaders

structure Header extends Signature where
  constants : ChannelMap Binary64
deriving DecidableEq

/-- A constant is a finite value of a derivative that some supported variant computes. -/
def Signature.checkConstant (s : Signature) (c : Channel) (x : Binary64) : Except Fault Unit :=
  if c.order = 0 then .error (.constantValue (s.channelText c))
  else if !s.hasChannel s.widest c then .error (.channelOutsideVariants (s.channelText c))
  else if x.isFinite then .ok ()
  else .error (.nonFinite (s.channelText c) x)

namespace Header

def ofSignature (s : Signature) (constants : ChannelMap Binary64) : Except Fault Header := do
  constants.entries.forM fun x => s.checkConstant x.1 x.2
  return ⟨s, constants⟩

def ofParts (name : String) (inputs outputs : List Variable) (variants : List Variant)
    (constants : ChannelMap Binary64) : Except Fault Header := do
  let s ← Signature.ofParts name inputs outputs variants
  ofSignature s (constants.map Binary64.asPrinted)

/-- The channels of a variant that its function writes, ascending. -/
def emitted (h : Header) (v : Variant) : List Channel :=
  (h.channels v).filter fun c => !h.constants.contains c

/-- The channels of a variant that are not among the given ones, ascending. -/
def missing (h : Header) (v : Variant) (given : List Channel) : List Channel :=
  (h.channels v).filter fun c => c ∉ given

/-- The constants of a variant other than zero, ascending. -/
def remarks (h : Header) (v : Variant) : List (Channel × Binary64) :=
  (h.channels v).filterMap fun c =>
    match h.constants.get? c with
    | some x => if x.isZero then none else some (c, x)
    | none => none

end Header

end DerivativeHeaders
