import DerivativeHeaders.Header
import DerivativeHeaders.Header.Layout

/-! # Header text

Each variant of a header is printed as a block: a marker, the variant as comments, the marker
again, the prototype, and an empty line. -/
namespace DerivativeHeaders

/-- The version of this format, for programs that keep texts of several versions. -/
def formatVersion : Nat := 1

/-- The line before and after the comments of a block. -/
def marker : String := "//=====[Option]====="

def commentStart : String := "//"

def remarkText (name : String) (x : Binary64) : String :=
  "/* " ++ name ++ " = " ++ x.fixed constantPlaces ++ " */"

namespace Header

def inputSlot (p : Variable) : Except Fault Slot :=
  return .parameter (← parameterText p.type p.name)

def channelSlot (h : Header) (c : Channel) : Except Fault Slot := do
  let type ← h.channelType c
  let name ← h.channelName c
  return .parameter (type ++ "* " ++ name)

def remarkSlot (h : Header) (c : Channel) (x : Binary64) : Except Fault Slot :=
  return .remark (remarkText (← h.channelName c) x)

def parameterSlots (h : Header) (v : Variant) : Except Fault (List Slot) := do
  let inputs ← h.inputs.mapM inputSlot
  let outputs ← (h.emitted v).mapM h.channelSlot
  return inputs ++ outputs

/-- The parameters of a variant, then its constants other than zero. -/
def slots (h : Header) (v : Variant) : Except Fault (List Slot) := do
  let parameters ← h.parameterSlots v
  let remarks ← (h.remarks v).mapM fun x => h.remarkSlot x.1 x.2
  return parameters ++ remarks

/-- The variant as comments between two markers. -/
def markerLines (v : Variant) : List String :=
  marker :: v.textLines.map (commentStart ++ ·) ++ [marker]

def prototypeLines (h : Header) (v : Variant) : Except Fault (List String) := do
  let slots ← h.slots v
  return Prototype.layout ");" (← h.functionName v) slots

def blockLines (h : Header) (v : Variant) : Except Fault (List String) :=
  return markerLines v ++ (← h.prototypeLines v) ++ [""]

def printLines (h : Header) : Except Fault (List String) :=
  return (← h.variants.mapM h.blockLines).flatten

/-- The text of the header, its lines with line feeds between them. -/
def print (h : Header) : Except Fault String :=
  return String.intercalate "\n" (← h.printLines)

/-- The lines that open the definition of a supported variant: its prototype without remarks,
a brace in place of the semicolon. -/
def definitionHead (h : Header) (v : Variant) : Except Fault (List String) := do
  if !h.supports v then throw (.unsupportedVariant v)
  let slots ← h.parameterSlots v
  return Prototype.layout ") \x7b" (← h.functionName v) slots

end Header

end DerivativeHeaders
