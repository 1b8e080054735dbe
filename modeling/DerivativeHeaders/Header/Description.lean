import DerivativeHeaders.Header

/-! # Compact descriptions

A description gives the variables as lists of declarations, the variants by their short names, and
the derivatives that are not zero: a bare name is computed at run time, a name with a number is
constant. -/
namespace DerivativeHeaders

structure Description where
  name : String
  inputs : String
  outputs : String
  derivatives : String
  variants : List String
deriving DecidableEq

/-- The complaint, with its place turned into a line of the source. -/
def complain {α : Type} (source : List Char) (span : Span) (complaint : Complaint) :
    Except Fault α :=
  .error (.line (Text.lineOf source span.start) complaint)

namespace Declaration

/-- The declarations of a source; `what` names it in messages. -/
def ofSource (what source : String) : Except Fault (List Declaration) :=
  match readList source.toList with
  | .ok ds => .ok ds
  | .error c => complain source.toList c.span (.list what c.value)

/-- The variable that a declaration with a type and without a value stands for. -/
def toVariable (what source : String) (d : Declaration) : Except Fault Variable :=
  if d.value.isSome then
    complain source.toList d.span (.variableWithValue what d.name.value)
  else
    match d.type with
    | some type => .ok ⟨type.value, d.name.value⟩
    | none => complain source.toList d.name.span (.variableWithoutType what d.name.value)

end Declaration

def Variable.ofSource (what source : String) : Except Fault (List Variable) := do
  (← Declaration.ofSource what source).mapM (Declaration.toVariable what source)

namespace Signature

/-- Adds a declaration of a channel to the ledger. -/
def declare (s : Signature) (l : Ledger) (d : Declaration) : Except Fault Ledger := do
  let name := d.name.value
  let c ← s.channelOfName name
  if 0 < c.order && !s.hasChannel s.widest c then throw (.channelOutsideVariants name)
  if let some type := d.type then s.checkType c name type.value
  l.record s c (d.value.elim .runtime .constant)

end Signature

namespace Header

def ofDescription (d : Description) : Except Fault Header := do
  let inputs ← Variable.ofSource "inputs" d.inputs
  let outputs ← Variable.ofSource "outputs" d.outputs
  let variants ← Variant.ofShortNames d.variants
  let s ← Signature.ofParts d.name inputs outputs variants
  let ds ← Declaration.ofSource "derivatives" d.derivatives
  let declared ← ds.foldlM s.declare .empty
  let complete ← declared.recordZeros s (s.derivatives.filter fun c => !declared.contains c)
  ofSignature s complete.constants

/-- The declaration of a derivative, none for the constant zero. -/
def declaration (h : Header) (c : Channel) : Except Fault (Option String) := do
  let name ← h.channelName c
  match h.constants.get? c with
  | none => return some name
  | some x =>
    if x.isZero then return none
    else return some (name ++ " = " ++ NumberStyle.description.text x)

def variablesText (xs : List Variable) : String :=
  String.intercalate ", " (xs.map fun x => x.type ++ " " ++ x.name)

def toDescription (h : Header) : Except Fault Description := do
  let derivatives ← h.derivatives.mapM h.declaration
  let variants ← Variant.shortNames h.variants
  return {
    name := h.name
    inputs := variablesText h.inputs
    outputs := variablesText h.outputs
    derivatives := String.intercalate ", " (derivatives.filterMap id)
    variants }

end Header

end DerivativeHeaders
