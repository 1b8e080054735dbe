import DerivativeHeaders.Fault
import DerivativeHeaders.Text.Ends

/-! # Channel names

A value channel has the name of its output, a derivative the names of its variables behind marks
with a capital letter: `D_out_D_in` and `D2_out_D_in_D_in`. -/
namespace DerivativeHeaders.Channel

def firstMark : List Char := ['D', '_']

def secondMark : List Char := ['D', '2', '_']

def separator : List Char := ['_', 'D', '_']

def variableName (c : Channel) (outputs inputs names : List String) (i : Nat) :
    Except Fault String :=
  match names[i]? with
  | none => .error (.channelRange c outputs.length inputs.length)
  | some name => if isFieldName name then .ok name else .error (.fieldName name)

def firstName (out input : String) : String := "D_" ++ out ++ "_D_" ++ input

def secondName (out a b : String) : String := "D2_" ++ out ++ "_D_" ++ a ++ "_D_" ++ b

def name (outputs inputs : List String) (c : Channel) : Except Fault String :=
  let outputName := c.variableName outputs inputs outputs
  let inputName := c.variableName outputs inputs inputs
  match c with
  | value o => outputName o
  | first o i => do
    let out ← outputName o
    let input ← inputName i
    return firstName out input
  | second o a b => do
    let out ← outputName o
    let a ← inputName a
    let b ← inputName b
    return secondName out a b

/-- The pieces between the occurrences of the separator, taken from left to right. The first
`skip` characters belong to a separator. -/
def splitFrom (skip : Nat) : List Char → List (List Char)
  | [] => [[]]
  | c :: cs =>
    match skip with
    | skip + 1 => splitFrom skip cs
    | 0 =>
      if (Text.dropStart? separator (c :: cs)).isSome then [] :: splitFrom 2 cs
      else
        match splitFrom 0 cs with
        | [] => [[c]]
        | piece :: rest => (c :: piece) :: rest

/-- The variable names in a channel name, with the derivative order that its mark says. -/
def segments (cs : List Char) : Nat × List (List Char) :=
  match Text.dropStart? secondMark cs with
  | some body => (2, splitFrom 0 body)
  | none =>
    match Text.dropStart? firstMark cs with
    | some body => (1, splitFrom 0 body)
    | none => (0, [cs])

def variableIndex (channel name : String) (names : List String) : Except Fault Nat :=
  match names.findIdx? (· == name) with
  | some i => .ok i
  | none => .error (.unknownVariable name channel)

/-- The channel of a name; the inputs of a second derivative are put in order. -/
def ofName (outputs inputs : List String) (name : String) : Except Fault Channel :=
  let (order, pieces) := segments name.toList
  if pieces.length = order + 1 ∧ pieces.all FieldName.isValidChars then
    match pieces.map String.ofList with
    | [out] => value <$> variableIndex name out outputs
    | [out, input] => do
      let o ← variableIndex name out outputs
      let i ← variableIndex name input inputs
      return first o i
    | [out, a, b] => do
      let o ← variableIndex name out outputs
      let a ← variableIndex name a inputs
      let b ← variableIndex name b inputs
      return ofPair o a b
    | _ => .error (.channelName name)
  else .error (.channelName name)

end DerivativeHeaders.Channel
