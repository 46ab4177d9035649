import Stencil.Json.Basic

namespace Stencil.Json

-- Appends digits to a significand as long as it fits 64 bits, and counts the digits left over.
def appendDigits (significand : Nat) : List Char → Nat × Nat
  | [] => (significand, 0)
  | d :: ds =>
    let next := 10 * significand + (d.toNat - 48)
    if next < UInt64.size then appendDigits next ds else (significand, ds.length + 1)

-- `significand · 10 ^ exponent`, scaled in floating-point arithmetic. There is none if it is too
-- large for a finite number.
def scale? (significand : Nat) (exponent : Int) : Option Float :=
  let x := Float.ofNat significand
  if significand = 0 then some 0
  else if 308 < exponent then none
  else if 0 ≤ exponent then
    let scaled := x * (Decimal.mk 1 exponent).toFloat
    if scaled.isInf then none else some scaled
  else if -308 ≤ exponent then some (x / (Decimal.mk 1 (-exponent)).toFloat)
  else if -616 ≤ exponent then some (x / 1e308 / (Decimal.mk 1 (-exponent - 308)).toFloat)
  else some 0

def integer? (negative : Bool) (n : Nat) : Numeral :=
  if negative then
    if n = 0 ∨ Nat.pow 2 63 < n then .float (-Float.ofNat n) else .int (-n)
  else .int n

-- A number from its parts: the digits before the point, those after it and the exponent.
def numeral? (negative : Bool) (whole : List Char) (fraction : Option (List Char))
    (exponent : Option Int) : Option Numeral :=
  let (significand, left) := appendDigits 0 whole
  if left = 0 ∧ fraction.isNone ∧ exponent.isNone then some (integer? negative significand)
  else
    let digits := fraction.getD []
    let (significand, unused) := appendDigits significand digits
    let scaled := scale? significand (left - (digits.length - unused : Nat) + exponent.getD 0)
    scaled.map fun x => .float (if negative then -x else x)

def readWhole? (cs : List Char) : Option (List Char × List Char) :=
  match cs.takeWhile isDigit with
  | [] => none
  | '0' :: _ :: _ => none
  | ds => some (ds, cs.dropWhile isDigit)

def readFraction? (cs : List Char) : Option (Option (List Char) × List Char) :=
  match cs with
  | '.' :: cs =>
    match cs.takeWhile isDigit with
    | [] => none
    | ds => some (some ds, cs.dropWhile isDigit)
  | cs => some (none, cs)

def readExponent? (cs : List Char) : Option (Option Int × List Char) :=
  match cs with
  | c :: cs =>
    if c == 'e' || c == 'E' then
      let (negative, cs) :=
        match cs with
        | '-' :: cs => (true, cs)
        | '+' :: cs => (false, cs)
        | cs => (false, cs)
      match cs.takeWhile isDigit with
      | [] => none
      | ds =>
        let n : Int := Decimal.digitsValue ds
        some (some (if negative then -n else n), cs.dropWhile isDigit)
    else some (none, c :: cs)
  | [] => some (none, [])

-- Reads the number at the start of a text, and gives what follows it.
def readNumeral? (cs : List Char) : Option (Numeral × List Char) := do
  let (negative, cs) :=
    match cs with
    | '-' :: cs => (true, cs)
    | cs => (false, cs)
  let (whole, cs) ← readWhole? cs
  let (fraction, cs) ← readFraction? cs
  let (exponent, cs) ← readExponent? cs
  let n ← numeral? negative whole fraction exponent
  return (n, cs)

end Stencil.Json
