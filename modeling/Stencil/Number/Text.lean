import Stencil.Number.Shortest

namespace Stencil.Number

-- The digits `d₁ d₂ …` of a finite number other than zero and the place of its point, such that its
-- magnitude is `0.d₁d₂… · 10 ^ point`.
structure Figures where
  digits : List Char
  point : Int

def figures (x : Float) : Figures :=
  let d := (Dyadic64.ofFloat x).shortest
  let digits := Nat.toDigits 10 d.digits
  ⟨(digits.reverse.dropWhile (· == '0')).reverse, digits.length + d.exponent⟩

namespace Figures

def positional (f : Figures) : List Char :=
  if f.point ≤ 0 then ['0', '.'] ++ List.replicate (-f.point).toNat '0' ++ f.digits
  else if f.digits.length ≤ f.point then
    f.digits ++ List.replicate (f.point.toNat - f.digits.length) '0'
  else f.digits.take f.point.toNat ++ ['.'] ++ f.digits.drop f.point.toNat

def scientific (f : Figures) : List Char :=
  let mantissa :=
    match f.digits with
    | d :: e :: ds => d :: '.' :: e :: ds
    | ds => ds
  let exponent := f.point - 1
  let sign := if exponent < 0 then '-' else '+'
  mantissa ++ ['e', sign] ++ Nat.toDigits 10 exponent.natAbs

end Figures

def signed (x : Float) (magnitude : List Char) : String :=
  .ofList (if x < 0 then '-' :: magnitude else magnitude)

-- The text of a number value: positional from a millionth up to `10 ^ 21`, and scientific beyond.
def text (x : Float) : String :=
  if x.isNaN then "NaN"
  else if x.isInf then signed x "Infinity".toList
  else if x == 0 then "0"
  else
    let f := figures x
    signed x (if -6 < f.point ∧ f.point ≤ 21 then f.positional else f.scientific)

-- The text of a number in a message: positional however large or small the number is.
def plain (x : Float) : String :=
  if x.isNaN then "NaN"
  else if x.isInf then signed x "inf".toList
  else if x == 0 then if x.toBits = 0 then "0" else "-0"
  else signed x (figures x).positional

-- The text of a number as the key of an object literal.
def key (x : Float) : String :=
  if x == 0 then "0" else plain x

end Stencil.Number
