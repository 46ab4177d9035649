import Stencil.Number.Shortest

namespace Stencil.Number

def isNegative (x : Float) : Bool :=
  Nat.pow 2 63 ≤ x.toBits.toNat

-- `n · 2 ^ e`, for a value that some number represents.
def ofDyadic (n : Nat) (e : Int) : Float :=
  if 0 ≤ e then Float.ofScientific (n * Nat.pow 2 e.toNat) false 0
  else Float.ofScientific (n * Nat.pow 5 (-e).toNat) true (-e).toNat

-- The exact remainder of the division that rounds the quotient toward zero. It has the sign of the
-- dividend.
def remainder (x y : Float) : Float :=
  if x.isNaN || y.isNaN || x.isInf || y == 0 then Decimal.nan
  else if y.isInf then x
  else
    let a := Dyadic64.ofFloat x
    let b := Dyadic64.ofFloat y
    let e := min a.exponent b.exponent
    let r := a.significand * Nat.pow 2 (a.exponent - e).toNat %
      (b.significand * Nat.pow 2 (b.exponent - e).toNat)
    let magnitude := ofDyadic r e
    if isNegative x then -magnitude else magnitude

end Stencil.Number
