import DerivativeHeaders.Header

/-! # Calls

A call of one variant passes an expression for each input and an address for each emitted
channel. A channel that nobody uses goes to a local variable of its type, one for each type. -/
namespace DerivativeHeaders

/-- What the code around a call offers and wants. -/
structure Usage where
  inputs : List String
  /-- The channels that are used, with the variable that each goes to if there is one. -/
  uses : ChannelMap (Option String)
deriving DecidableEq

namespace Usage

def ofInputs (inputs : List String) : Usage := ⟨inputs, .empty⟩

def bind (u : Usage) (c : Channel) (destination : String) : Usage :=
  { u with uses := u.uses.insert c (some destination) }

/-- Uses a channel, in the variable it has been bound to if there is one. -/
def require (u : Usage) (c : Channel) : Usage :=
  if u.uses.contains c then u else { u with uses := u.uses.insert c none }

end Usage

/-- What stands before the type in the name of a local variable for unused channels. -/
def unusedStart : String := "G_UNUSED_"

/-- Where a call writes an emitted channel. -/
inductive Target where
  | destination (name : String)
  | unused (type : String)
deriving DecidableEq

namespace Target

def argument : Target → String
  | destination name => "&" ++ name
  | unused type => "&" ++ unusedStart ++ type

/-- The types of unused targets, each where it comes first. -/
def unusedTypes (seen : List String) : List Target → List String
  | [] => []
  | destination _ :: targets => unusedTypes seen targets
  | unused type :: targets =>
    if type ∈ seen then unusedTypes seen targets
    else type :: unusedTypes (type :: seen) targets

end Target

/-- The statement of a call, and the used channels that are constants. -/
structure CallStatement where
  callee : String
  arguments : List String
  /-- The types that have a local variable for unused channels. -/
  locals : List String
  constants : ChannelMap Binary64
deriving DecidableEq

namespace CallStatement

def declaration (type : String) : String := "  " ++ type ++ " " ++ unusedStart ++ type ++ ";"

/-- The statement in a block of its own. -/
def lines (s : CallStatement) : List String :=
  ["\x7b"] ++ s.locals.map declaration ++
    ["  " ++ s.callee ++ "(" ++ String.intercalate ", " s.arguments ++ ");", "\x7d"]

def text (s : CallStatement) : String := String.intercalate "\n" s.lines

end CallStatement

namespace Header

/-- Where a call with this usage writes a channel. -/
def target (h : Header) (u : Usage) (c : Channel) : Except Fault Target :=
  match u.uses.get? c with
  | some (some name) => .ok (.destination name)
  | some none => .error (.noDestination (h.channelText c))
  | none => .unused <$> h.channelType c

/-- The used channels of a variant that are constants, with their values. -/
def resolved (h : Header) (v : Variant) (u : Usage) : ChannelMap Binary64 :=
  h.constants.filterMap fun c x =>
    if h.hasChannel v c && u.uses.contains c then some x else none

/-- The name that a call uses, inside a namespace if one is given. -/
def calleeName (h : Header) (v : Variant) (space : Option String) : Except Fault String := do
  let name ← h.functionName v
  match space with
  | some path => return path ++ "::" ++ name
  | none => return name

/-- The supported variant, the count of inputs and the used channels are as the header wants. -/
def checkUsage (h : Header) (v : Variant) (u : Usage) : Except Fault Unit := do
  if !h.supports v then throw (.unsupportedVariant v)
  if u.inputs.length ≠ h.inputs.length then
    throw (.inputCount h.inputs.length u.inputs.length)
  match u.uses.keys.find? fun c => !h.hasChannel v c with
  | some c => throw (.unavailableChannel (h.channelText c) v)
  | none => return ()

def checkNamespace : Option String → Except Fault Unit
  | some path => if isQualifiedPath path then .ok () else .error (.qualifiedPath path)
  | none => .ok ()

def call (h : Header) (v : Variant) (u : Usage) (space : Option String) :
    Except Fault CallStatement := do
  checkNamespace space
  h.checkUsage v u
  let targets ← (h.emitted v).mapM (h.target u)
  let callee ← h.calleeName v space
  return {
    callee
    arguments := u.inputs ++ targets.map Target.argument
    locals := Target.unusedTypes [] targets
    constants := h.resolved v u }

end Header

end DerivativeHeaders
