import DerivativeHeaders.Number.Printed
import DerivativeHeaders.Signature

/-! # Ledgers

A ledger collects what is said about the channels of a signature, and refuses to hold two
different roles for one channel. -/
namespace DerivativeHeaders

def Role.rounded : Role → Role
  | runtime => runtime
  | constant x => constant x.asPrinted

def Role.constant? : Role → Option Binary64
  | runtime => none
  | constant x => some x

structure Ledger where
  roles : ChannelMap Role
deriving DecidableEq

namespace Ledger

def empty : Ledger := ⟨.empty⟩

def contains (l : Ledger) (c : Channel) : Bool := l.roles.contains c

/-- Adds that the channel has the role, rounded. -/
def record (s : Signature) (l : Ledger) (c : Channel) (role : Role) : Except Fault Ledger :=
  match l.roles.get? c with
  | none => .ok ⟨l.roles.insert c role.rounded⟩
  | some earlier =>
    if earlier = role.rounded then .ok l
    else .error (.conflict (s.channelText c) earlier role.rounded)

/-- Adds that each of the channels is the constant zero. -/
def recordZeros (s : Signature) (l : Ledger) (channels : List Channel) : Except Fault Ledger :=
  channels.foldlM (fun l c => l.record s c (.constant .zero)) l

def constants (l : Ledger) : ChannelMap Binary64 := l.roles.filterMap fun _ role => role.constant?

end Ledger

end DerivativeHeaders
