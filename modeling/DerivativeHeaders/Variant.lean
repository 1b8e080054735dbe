/-! # Capability variants

A variant says which derivative orders a function computes besides its values. The registered
variants have short names; their order is the order of the blocks in a header. -/
namespace DerivativeHeaders

inductive Toggle where
  | firstOrder
  | secondOrder
deriving DecidableEq

structure Variant where
  firstOrder : Bool
  secondOrder : Bool
deriving DecidableEq

namespace Toggle

def all : List Toggle := [firstOrder, secondOrder]

def key : Toggle → String
  | firstOrder => "enable_1st_order_derivative"
  | secondOrder => "enable_2nd_order_derivative"

/-- The part of a function name that stands for the toggle. -/
def label : Toggle → String
  | firstOrder => "First"
  | secondOrder => "Second"

def ofKey? (key : String) : Option Toggle := all.find? fun t => t.key == key

end Toggle

namespace Variant

def plain : Variant := ⟨false, false⟩

instance : Inhabited Variant := ⟨plain⟩

def get (v : Variant) : Toggle → Bool
  | .firstOrder => v.firstOrder
  | .secondOrder => v.secondOrder

def set (v : Variant) (on : Bool) : Toggle → Variant
  | .firstOrder => { v with firstOrder := on }
  | .secondOrder => { v with secondOrder := on }

def union (v w : Variant) : Variant :=
  ⟨v.firstOrder || w.firstOrder, v.secondOrder || w.secondOrder⟩

def active (v : Variant) : List Toggle := Toggle.all.filter v.get

/-- The base name with the labels of the active toggles, or alone if there are none. -/
def extendName (v : Variant) (base : String) : String :=
  if v = plain then base
  else base ++ "With" ++ String.join (v.active.map Toggle.label) ++ "OrderDerivatives"

def registry : List (String × Variant) :=
  [("d0", plain), ("d1", ⟨true, false⟩), ("d2", ⟨true, true⟩)]

def ofShortName? (name : String) : Option Variant :=
  (registry.find? fun x => x.1 == name).map Prod.snd

def shortName? (v : Variant) : Option String :=
  (registry.find? fun x => x.2 == v).map Prod.fst

def position? (v : Variant) : Option Nat := registry.findIdx? fun x => x.2 == v

def unionAll (vs : List Variant) : Variant := vs.foldl union plain

def widest : Variant := unionAll (registry.map Prod.snd)

def toggleText (v : Variant) (t : Toggle) : String :=
  t.key ++ "=" ++ (if v.get t then "true" else "false")

/-- The short name, or the setting of every toggle if there is none. -/
def display (v : Variant) : String :=
  match v.shortName? with
  | some name => name
  | none => "\x7b" ++ String.intercalate ", " (Toggle.all.map v.toggleText) ++ "\x7d"

end Variant

end DerivativeHeaders
