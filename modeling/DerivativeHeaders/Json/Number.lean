import DerivativeHeaders.Json.Fault
import DerivativeHeaders.Number.Numeral

/-! # Numbers in JSON

A number keeps as many of its digits as fit 64 bits and counts the others in its exponent. The
power of ten is applied to the rounded significand, so a number that is not whole may be an
ulp away from the nearest one. -/
namespace DerivativeHeaders

namespace Binary64

def multiply (a b : Magnitude) : Binary64 :=
  nearest false (a.units * b.units) (unitsPerOne * unitsPerOne)

def divide (a b : Magnitude) : Binary64 := nearest false a.units b.units

def withSign (negative : Bool) : Binary64 → Binary64
  | nan => nan
  | infinite _ => infinite negative
  | finite _ m => finite negative m

end Binary64

namespace Magnitude

/-- The magnitude nearest to a whole number, zero when there is none. -/
def ofNat (n : Nat) : Magnitude := (nearest? n 1).getD zero

end Magnitude

namespace Json

def wordLimit : Nat := 0x10000000000000000

/-- The largest power of ten that is applied in one step. -/
def powerLimit : Nat := 308

/-- Adds digits to a significand as long as it fits a word; the rest is not used. -/
def absorb (significand : Nat) : List Char → Nat × List Char
  | [] => (significand, [])
  | c :: cs =>
    let next := significand * 10 + (c.toNat - '0'.toNat)
    if next < wordLimit then absorb next cs else (significand, c :: cs)

/-- Divides a magnitude below the limit of words by `10 ^ k`, in two steps if the power is too large
for one; nothing is left of it after a third. -/
def scaleDown (k : Nat) (m : Magnitude) : Binary64 :=
  if k ≤ powerLimit then .divide m (.ofNat (tenPow k))
  else if k ≤ 2 * powerLimit then
    match Binary64.divide m (.ofNat (tenPow powerLimit)) with
    | .finite _ m => .divide m (.ofNat (tenPow (k - powerLimit)))
    | x => x
  else .zero

/-- The significand times a power of ten, none when that is beyond the finite numbers. -/
def scale? (significand : Nat) (exponent : Int) : Option Binary64 :=
  let m := Magnitude.ofNat significand
  match exponent with
  | .ofNat k =>
    if k ≤ powerLimit then
      match Binary64.multiply m (.ofNat (tenPow k)) with
      | .finite _ m => some (.finite false m)
      | _ => none
    else if m.units = 0 then some .zero
    else none
  | .negSucc k => some (scaleDown (k + 1) m)

/-- A number, or a cause with the count of characters up to where it is reported, and the count
of characters read. -/
abbrev NumberScan := Except (Cause × Nat) (Json × Nat)

def finishFloat (negative : Bool) (significand : Nat) (exponent : Int) (length : Nat) :
    NumberScan :=
  match scale? significand exponent with
  | some x => .ok (float (x.withSign negative), length)
  | none => .error (.numberOutOfRange, length)

/-- An exponent beyond this makes the number zero or unusable whatever its digits. -/
def exponentLimit : Nat := 0x80000000

/-- The digits up to the first that takes the exponent to the limit, that one included. -/
def exponentOverflow? : Nat → List Char → Option Nat
  | _, [] => none
  | exponent, c :: cs =>
    let next := exponent * 10 + (c.toNat - '0'.toNat)
    if exponentLimit ≤ next then some 1 else (exponentOverflow? next cs).map (· + 1)

/-- Reads on after an exponent mark; `length` characters stand before it and the mark. -/
def scanExponent (negative : Bool) (significand : Nat) (exponent : Int) (length : Nat)
    (cs : List Char) : NumberScan :=
  let (sign, rest) := Numeral.scanSign cs
  let length := length + (cs.length - rest.length)
  let digits := rest.takeWhile Char.isDigit
  if digits = [] then
    match rest with
    | [] => .error (.endInValue, length)
    | _ => .error (.invalidNumber, length + 1)
  else
    match exponentOverflow? 0 digits with
    | some read =>
      if significand ≠ 0 ∧ sign ≠ some .minus then
        .error (.numberOutOfRange, length + read)
      else .ok (float (Binary64.zero.withSign negative), length + digits.length)
    | none =>
      let shift : Int := digitsValue digits
      finishFloat negative significand
        (if sign = some .minus then exponent - shift else exponent + shift)
        (length + digits.length)

def isExponentMark (c : Char) : Bool := c == 'e' || c == 'E'

/-- Reads on after a point; `length` characters stand before it and the point. -/
def scanFraction (negative : Bool) (significand : Nat) (exponent : Int) (length : Nat)
    (cs : List Char) : NumberScan :=
  let digits := cs.takeWhile Char.isDigit
  let rest := cs.dropWhile Char.isDigit
  if digits = [] then
    match rest with
    | [] => .error (.endInValue, length)
    | _ => .error (.invalidNumber, length + 1)
  else
    let (significand, unused) := absorb significand digits
    let exponent := exponent - (digits.length - unused.length : Nat)
    let length := length + digits.length
    match rest with
    | c :: rest =>
      if isExponentMark c then scanExponent negative significand exponent (length + 1) rest
      else finishFloat negative significand exponent length
    | [] => finishFloat negative significand exponent length

/-- A whole number is kept as such if it fits 64 bits with its sign. -/
def finishWhole (negative : Bool) (significand length : Nat) : Json × Nat :=
  if negative = false then (integer significand, length)
  else if significand = 0 ∨ wordLimit / 2 < significand then
    (float (.finite true (.ofNat significand)), length)
  else (integer (-significand), length)

def scanNumber (cs : List Char) : NumberScan :=
  let (negative, rest) :=
    match cs with
    | '-' :: rest => (true, rest)
    | _ => (false, cs)
  let start := cs.length - rest.length
  let digits := rest.takeWhile Char.isDigit
  match digits, rest with
  | [], [] => .error (.endInValue, start)
  | [], _ :: _ => .error (.invalidNumber, start + 1)
  | '0' :: _ :: _, _ => .error (.invalidNumber, start + 2)
  | digits, rest =>
    let (significand, unused) := absorb 0 digits
    let length := start + digits.length
    let finish : Unit → NumberScan := fun _ =>
      if unused = [] then .ok (finishWhole negative significand length)
      else finishFloat negative significand unused.length length
    match rest.dropWhile Char.isDigit with
    | c :: rest =>
      if c = '.' then scanFraction negative significand unused.length (length + 1) rest
      else if isExponentMark c then
        scanExponent negative significand unused.length (length + 1) rest
      else finish ()
    | [] => finish ()

end Json

end DerivativeHeaders
