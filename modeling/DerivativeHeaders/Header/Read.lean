import DerivativeHeaders.Header.Prototype

/-! # Reading header texts

The first block gives the signature. Each block then says for every channel of its variant
whether it is written, constant, or left out, which means that it is zero; the blocks have to
agree. -/
namespace DerivativeHeaders

/-- Adding up a block: the ledger so far, and the channels that the block mentions. -/
structure Tally where
  ledger : Ledger
  seen : List Channel
deriving DecidableEq

namespace Signature

def blockChannel (s : Signature) (v : Variant) (line : Nat) (name : String) :
    Except Fault Channel := do
  let c ← s.channelOfName name
  if s.hasChannel v c then return c
  else throw (.line line (.foreignChannel name))

/-- Adds a mention of a channel, which has to be the first in its block. -/
def mention (s : Signature) (t : Tally) (line : Nat) (name : String) (c : Channel) (role : Role) :
    Except Fault Tally := do
  if c ∈ t.seen then throw (.line line (.repeatedChannel name))
  return ⟨← t.ledger.record s c role, c :: t.seen⟩

def addField (s : Signature) (v : Variant) (t : Tally) (x : Nat × Field) : Except Fault Tally :=
  match x.2 with
  | .input _ => .ok t
  | .output type name => do
    let c ← s.blockChannel v x.1 name
    s.checkType c name type
    s.mention t x.1 name c .runtime
  | .constant name value => do
    let c ← s.blockChannel v x.1 name
    s.mention t x.1 name c (.constant value)

/-- Adds what a block with its prototype says about the channels. -/
def addBlock (s : Signature) (l : Ledger) (b : Block) (p : Prototype) : Except Fault Ledger := do
  let expected ← s.functionName b.variant
  if p.function ≠ expected then
    throw (.line b.opened (.otherFunction b.variant p.function expected))
  let t ← p.fields.foldlM (s.addField b.variant) ⟨l, []⟩
  if p.inputs ≠ s.inputs then throw (.line b.opened (.otherInputs b.variant))
  t.ledger.recordZeros s ((s.channels b.variant).filter fun c => c ∉ t.seen)

def readBlock (s : Signature) (l : Ledger) (b : Block) : Except Fault Ledger := do
  s.addBlock l b (← Prototype.ofBlock b)

end Signature

/-- The prototype of the first block declares values only. -/
def Prototype.checkDefault (p : Prototype) : Except Fault Unit :=
  p.fields.forM fun x =>
    match x.2 with
    | .constant name _ => .error (.line x.1 (.constantInDefault name))
    | _ => .ok ()

namespace Header

def ofBlocks : List Block → Except Fault Header
  | [] => .error .noDefaultVariant
  | first :: rest => do
    if first.variant ≠ .plain then throw .noDefaultVariant
    let p ← Prototype.ofBlock first
    p.checkDefault
    let s ← Signature.ofParts p.function p.inputs p.outputs
      (first.variant :: rest.map Block.variant)
    let l ← s.addBlock .empty first p
    let l ← rest.foldlM s.readBlock l
    ofSignature s l.constants

def ofText (text : String) : Except Fault Header := do
  ofBlocks (← Block.locate (Line.ofText text.toList))

end Header

end DerivativeHeaders
