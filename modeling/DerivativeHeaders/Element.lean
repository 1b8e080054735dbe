import DerivativeHeaders.Fault

/-! # Element types

The numeric types in the order of their ranks, and how a parameter of a type is passed. A type
outside this list is passed like a large one. -/
namespace DerivativeHeaders

inductive Element where
  | int
  | float
  | double
  | arrayXd
deriving DecidableEq

inductive Passing where
  | byValue
  | byConstReference
deriving DecidableEq

namespace Element

def all : List Element := [int, float, double, arrayXd]

def name : Element → String
  | int => "int"
  | float => "float"
  | double => "double"
  | arrayXd => "ArrayXd"

def ofName? (name : String) : Option Element := all.find? fun e => e.name == name

/-- A type takes in the types of lower rank. -/
def rank : Element → Nat
  | int => 1
  | float => 2
  | double => 3
  | arrayXd => 4

def isSmall : Element → Bool
  | int | double => true
  | float | arrayXd => false

def higher (a b : Element) : Element := if a.rank ≤ b.rank then b else a

/-- The type of highest rank among those that are listed by name, if there is one. -/
def highest (types : List String) : Option Element :=
  (types.filterMap ofName?).foldl (fun best e => some (best.elim e (higher · e))) none

/-- Whether a value of the first type fits the second; both have to be element types. -/
def fitsInto (source target : String) : Bool :=
  match ofName? source, ofName? target with
  | some a, some b => a.rank ≤ b.rank
  | _, _ => false

end Element

namespace Passing

def ofName (type : String) : Passing :=
  match Element.ofName? type with
  | some e => if e.isSmall then byValue else byConstReference
  | none => byConstReference

def ofType (type : String) : Except Fault Passing :=
  if isIdentifier type then .ok (ofName type) else .error (.identifier type)

/-- The parameter text of an input. -/
def text (passing : Passing) (type name : String) : String :=
  match passing with
  | byValue => type ++ " " ++ name
  | byConstReference => "const " ++ type ++ "& " ++ name

end Passing

/-- The parameter text of an input, by the passing of its type. -/
def parameterText (type name : String) : Except Fault String :=
  return (← Passing.ofType type).text type name

end DerivativeHeaders
