import DerivativeHeaders.Fault

/-! # Prototype layout

A slot is one place of a parameter list: a parameter, or a remark that stands among them. With
two or more slots each has a line of its own, aligned under the first. -/
namespace DerivativeHeaders

inductive Slot where
  | parameter (text : String)
  | remark (text : String)
deriving DecidableEq

namespace Slot

def text : Slot → String
  | parameter s | remark s => s

def isParameter : Slot → Bool
  | parameter _ => true
  | remark _ => false

end Slot

namespace Prototype

def opening (function : String) : String := "void " ++ function ++ "("

/-- A slot with what follows it: a comma after a parameter if another parameter comes, and the
closing after the last slot. -/
def slotText (slot : Slot) (rest : List Slot) (closing : String) : String :=
  slot.text ++ (if slot.isParameter && rest.any Slot.isParameter then "," else "") ++
    (if rest.isEmpty then closing else "")

/-- The texts of the slots, the first behind `lead` and each other one behind `indent`. -/
def slotLines (closing lead indent : String) : List Slot → List String
  | [] => []
  | slot :: rest => (lead ++ slotText slot rest closing) :: slotLines closing indent indent rest

def indent (function : String) : String :=
  String.ofList (List.replicate (opening function).utf8ByteSize ' ')

def layout (closing function : String) (slots : List Slot) : List String :=
  if slots.isEmpty then [opening function ++ closing]
  else slotLines closing (opening function) (indent function) slots

end Prototype

end DerivativeHeaders
