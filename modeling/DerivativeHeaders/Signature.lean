import DerivativeHeaders.Channel.Enumeration
import DerivativeHeaders.Channel.Name
import DerivativeHeaders.ChannelMap
import DerivativeHeaders.Element

/-! # Signatures

A signature is what all variants of a function share: its name, its inputs and outputs, and which
variants there are. `Signature.ofParts` accepts well-formed parts only. -/
namespace DerivativeHeaders

structure Variable where
  type : String
  name : String
deriving DecidableEq

structure Signature where
  name : String
  inputs : List Variable
  outputs : List Variable
  variants : List Variant
deriving DecidableEq

namespace Variant

def checkAll (seen : List Variant) : List Variant → Except Fault Unit
  | [] => .ok ()
  | v :: vs =>
    if v.position?.isNone then .error (.unregisteredVariant v)
    else if v ∈ seen then .error (.repeatedVariant v)
    else checkAll (v :: seen) vs

/-- The variants in the order of the registry, the plain one among them. -/
def inOrder (vs : List Variant) : Except Fault (List Variant) := do
  checkAll [] vs
  if plain ∈ vs then return (registry.map Prod.snd).filter (· ∈ vs)
  else throw .noDefaultVariant

def ofShortNames (names : List String) : Except Fault (List Variant) :=
  names.mapM fun name =>
    match ofShortName? name with
    | some v => .ok v
    | none => .error (.unknownVariant name)

def shortNames (vs : List Variant) : Except Fault (List String) :=
  vs.mapM fun v =>
    match v.shortName? with
    | some name => .ok name
    | none => .error (.unregisteredVariant v)

def functionName (v : Variant) (base : String) : Except Fault String :=
  if isIdentifier base then .ok (v.extendName base) else .error (.identifier base)

def channels (v : Variant) (inputs outputs : Nat) : List Channel :=
  Channel.enumerate inputs outputs v.firstOrder v.secondOrder

end Variant

/-- Types are identifiers, names are field names, and no name is in `seen` or used twice. -/
def Variable.checkAll (seen : List String) : List Variable → Except Fault Unit
  | [] => .ok ()
  | p :: ps =>
    if ¬ isIdentifier p.type then .error (.identifier p.type)
    else if ¬ isFieldName p.name then .error (.fieldName p.name)
    else if p.name ∈ seen then .error (.repeatedVariable p.name)
    else checkAll (p.name :: seen) ps

namespace Signature

def check (s : Signature) : Except Fault Unit :=
  if isIdentifier s.name then Variable.checkAll [] (s.inputs ++ s.outputs)
  else .error (.identifier s.name)

def ofParts (name : String) (inputs outputs : List Variable) (variants : List Variant) :
    Except Fault Signature := do
  let variants ← Variant.inOrder variants
  let s : Signature := ⟨name, inputs, outputs, variants⟩
  s.check
  return s

def inputNames (s : Signature) : List String := s.inputs.map Variable.name

def outputNames (s : Signature) : List String := s.outputs.map Variable.name

def supports (s : Signature) (v : Variant) : Bool := v ∈ s.variants

def widest (s : Signature) : Variant := Variant.unionAll s.variants

def channels (s : Signature) (v : Variant) : List Channel :=
  v.channels s.inputs.length s.outputs.length

def hasChannel (s : Signature) (v : Variant) (c : Channel) : Bool :=
  c.fits s.inputs.length s.outputs.length && c.isCanonical &&
    c.isEnabled v.firstOrder v.secondOrder

theorem mem_channels {s : Signature} {v : Variant} {c : Channel} :
    c ∈ s.channels v ↔ s.hasChannel v c := by
  simp only [channels, Variant.channels, Channel.mem_enumerate, hasChannel, Bool.and_eq_true,
    and_assoc]

/-- The derivatives that some supported variant computes, ascending. -/
def derivatives (s : Signature) : List Channel := (s.channels s.widest).filter (0 < ·.order)

def channelName (s : Signature) (c : Channel) : Except Fault String :=
  c.name s.outputNames s.inputNames

def channelOfName (s : Signature) (name : String) : Except Fault Channel :=
  Channel.ofName s.outputNames s.inputNames name

def channelType (s : Signature) (c : Channel) : Except Fault String :=
  match s.outputs[c.output]? with
  | some x => .ok x.type
  | none => .error (.channelRange c s.outputs.length s.inputs.length)

/-- Fails if the channel, written as `name`, has another type. -/
def checkType (s : Signature) (c : Channel) (name type : String) : Except Fault Unit := do
  let expected ← s.channelType c
  if expected = type then return ()
  else throw (.channelType name expected type)

/-- The channel in a message: by its name if it has one, or else by its indices. -/
def channelText (s : Signature) (c : Channel) : String :=
  match s.channelName c with
  | .ok name => name
  | .error _ => c.display

def functionName (s : Signature) (v : Variant) : Except Fault String := v.functionName s.name

end Signature

end DerivativeHeaders
