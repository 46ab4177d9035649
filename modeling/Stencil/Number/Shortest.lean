import Stencil.Number.Decimal

namespace Stencil

-- The magnitude `significand · 2 ^ exponent` of a finite number. `tight` holds where the next
-- smaller number is only half as far away as the next larger one.
structure Dyadic64 where
  significand : Nat
  exponent : Int
  tight : Bool

namespace Dyadic64

def ofFloat (x : Float) : Dyadic64 :=
  let bits := x.toBits.toNat
  let fraction := bits % Nat.pow 2 52
  let field : Nat := bits / Nat.pow 2 52 % Nat.pow 2 11
  if field = 0 then ⟨fraction, -1074, false⟩
  else ⟨Nat.pow 2 52 + fraction, (field : Int) - 1075, fraction = 0 && 1 < field⟩

-- A quarter of the distance to the next larger number, as a numerator and a denominator.
def quarter (b : Dyadic64) : Nat × Nat :=
  if 2 ≤ b.exponent then (Nat.pow 2 (b.exponent - 2).toNat, 1)
  else (1, Nat.pow 2 (2 - b.exponent).toNat)

-- `10 ^ k` as a numerator and a denominator.
def tenth (k : Int) : Nat × Nat :=
  if 0 ≤ k then (Nat.pow 10 k.toNat, 1) else (1, Nat.pow 10 (-k).toNat)

-- The `e` with `10 ^ (e - 1) ≤ b < 10 ^ e`.
def magnitude (b : Dyadic64) : Int :=
  let (n, d) := b.quarter
  let n := 4 * b.significand * n
  if d ≤ n then (Nat.toDigits 10 (n / d)).length else 1 - (Nat.toDigits 10 (d / n)).length

-- Whether `c · 10 ^ k` is nearest to `b` among all numbers. The midpoints to the neighbours belong
-- to the number with the even significand.
def owns (b : Dyadic64) (k : Int) (c : Nat) : Bool :=
  let (n, d) := b.quarter
  let (p, r) := tenth k
  let x := c * p * d
  let low := (4 * b.significand - if b.tight then 1 else 2) * n * r
  let high := (4 * b.significand + 2) * n * r
  if b.significand % 2 = 0 then low ≤ x && x ≤ high else low < x && x < high

-- The multiple of `10 ^ k` that is nearest to `b` among the multiples next to `b` that round back
-- to it. Of two equally near the larger one is taken.
def onGrid? (b : Dyadic64) (k : Int) : Option Nat :=
  let (n, d) := b.quarter
  let (p, r) := tenth k
  let v := 4 * b.significand * n * r
  let below := v / (p * d)
  let upward := below + 1
  match b.owns k below, b.owns k upward with
  | false, false => none
  | true, false => some below
  | false, true => some upward
  | true, true => some (if upward * (p * d) - v ≤ v - below * (p * d) then upward else below)

-- The coarsest grid of at most seventeen digits that has such a multiple gives the fewest digits.
def shortest (b : Dyadic64) : Decimal :=
  go 17 (b.magnitude - 1)
where
  go : Nat → Int → Decimal
    | 0, k => ⟨0, k⟩
    | n + 1, k =>
      match b.onGrid? k with
      | some c => ⟨c, k⟩
      | none => go n (k - 1)

end Dyadic64
end Stencil
