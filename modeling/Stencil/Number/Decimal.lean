import Stencil.Text.Name

namespace Stencil

-- The decimal `digits · 10 ^ exponent`.
structure Decimal where
  digits : Nat
  exponent : Int
deriving DecidableEq

namespace Decimal

def digitsValue (cs : List Char) : Nat :=
  cs.foldl (fun n c => 10 * n + (c.toNat - 48)) 0

def readExponent? (cs : List Char) : Option Int :=
  match cs with
  | '-' :: ds => (unsigned? ds).map fun n => -n
  | '+' :: ds => unsigned? ds
  | ds => unsigned? ds
where
  unsigned? (ds : List Char) : Option Int :=
    if !ds.isEmpty && ds.all isDigit then some (digitsValue ds) else none

-- Digits with at most one point among them, and at least one digit, then possibly an exponent.
def read? (cs : List Char) : Option Decimal :=
  let whole := cs.takeWhile isDigit
  let (fraction, rest) :=
    match cs.dropWhile isDigit with
    | '.' :: ds => (ds.takeWhile isDigit, ds.dropWhile isDigit)
    | rest => ([], rest)
  if whole.isEmpty && fraction.isEmpty then none
  else
    let exponent? :=
      match rest with
      | [] => some 0
      | c :: ds => if c == 'e' || c == 'E' then readExponent? ds else none
    exponent?.map fun e => ⟨digitsValue (whole ++ fraction), e - fraction.length⟩

def infinity : Float :=
  1.0 / 0.0

def nan : Float :=
  0.0 / 0.0

-- Rounds to the nearest number. What is far outside the range of finite numbers is not worked out.
def toFloat (d : Decimal) : Float :=
  let magnitude := (Nat.toDigits 10 d.digits).length + d.exponent
  if d.digits = 0 ∨ magnitude < -400 then 0
  else if 400 < magnitude then infinity
  else Float.ofScientific d.digits (d.exponent < 0) d.exponent.natAbs

end Decimal
end Stencil
