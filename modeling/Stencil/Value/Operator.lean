import Stencil.Expr.Basic
import Stencil.Fields
import Stencil.Number.Remainder
import Stencil.Value.Coercion

namespace Stencil
namespace Value

-- A sum joins texts as soon as one side is a text.
def add (a b : Value) : Value :=
  if a.primitive.isString || b.primitive.isString then .string (a.text ++ b.text)
  else .number (a.toNumber + b.toNumber)

-- Arrays, objects and functions equal only themselves.
def strictEq : Value → Value → Bool
  | undefined, undefined | null, null => true
  | bool a, bool b => a == b
  | number x, number y => x == y
  | string s, string t => s == t
  | array i _, array j _ => i == j
  | object i _, object j _ => i == j
  | function f, function g => f.id == g.id
  | _, _ => false

def sameVariant : Value → Value → Bool
  | undefined, undefined | null, null | bool _, bool _ | number _, number _ | string _, string _
  | array _ _, array _ _ | object _ _, object _ _ | function _, function _ => true
  | _, _ => false

-- How many coercions a comparison can make of a value. A truth value becomes a number, and an
-- array, an object or a function becomes a text.
def coercions : Value → Nat
  | bool _ | array _ _ | object _ _ | function _ => 1
  | _ => 0

theorem coercions_primitive_le (v : Value) : v.primitive.coercions ≤ v.coercions := by
  cases v <;> first | exact Nat.zero_le _ | exact Nat.le_refl _

theorem coercions_primitive_lt {v : Value} (h : v.isCompound) :
    v.primitive.coercions < v.coercions := by
  cases v <;> cases h <;> exact Nat.zero_lt_one

-- Equality with coercions. Each of them leaves the rest to the comparison of what it gives.
def looseEq (a b : Value) : Bool :=
  if a.sameVariant b then a.strictEq b
  else if a.isNullish && b.isNullish then true
  else if a.isNullish || b.isNullish then false
  else
    match a, b with
    | number x, string s | string s, number x => x == toNumber (.string s)
    | bool p, other | other, bool p => looseEq (.number (toNumber (.bool p))) other
    | a, b =>
      let changed := !a.primitive.strictEq a || !b.primitive.strictEq b
      -- One of the two is an array, an object or a function, or it would have been compared above.
      if _h : a.isCompound ∨ b.isCompound then changed && looseEq a.primitive b.primitive
      else false
termination_by a.coercions + b.coercions
decreasing_by
  · exact Nat.add_lt_add_right Nat.zero_lt_one _
  · rw [Nat.add_comm]
    exact Nat.add_lt_add_left Nat.zero_lt_one _
  · have := a.coercions_primitive_le
    have := b.coercions_primitive_le
    have := _h.imp coercions_primitive_lt coercions_primitive_lt
    omega

-- Two texts compare by their characters, other values as numbers.
def compare (a b : Value) : Option Ordering :=
  match a.primitive, b.primitive with
  | string s, string t => some (Ord.compare s t)
  | _, _ =>
    let x := a.toNumber
    let y := b.toNumber
    if x < y then some .lt else if x == y then some .eq else if y < x then some .gt else none

mutual

-- Whether two values have the same contents. The order of fields does not matter.
def sameContents : Value → Value → Bool
  | undefined, undefined | null, null => true
  | bool a, bool b => a == b
  | number x, number y => x == y
  | string s, string t => s == t
  | array _ as, array _ bs => sameItems as bs
  | object _ as, object _ bs => as.length == bs.length && sameFields as bs
  | function f, function g => f.id == g.id
  | _, _ => false

def sameItems : List Value → List Value → Bool
  | [], [] => true
  | a :: as, b :: bs => sameContents a b && sameItems as bs
  | _, _ => false

def sameFields : List (String × Value) → List (String × Value) → Bool
  | [], _ => true
  | (name, a) :: as, bs =>
    (match Fields.get? bs name with
      | some b => sameContents a b
      | none => false)
    && sameFields as bs

end

def unary (op : UnaryOp) (v : Value) : Value :=
  match op with
  | .not => .bool !v.isTruthy
  | .neg => .number (-v.toNumber)
  | .plus => .number v.toNumber

def binary (op : BinaryOp) (a b : Value) : Value :=
  match op with
  | .add => a.add b
  | .sub => .number (a.toNumber - b.toNumber)
  | .mul => .number (a.toNumber * b.toNumber)
  | .div => .number (a.toNumber / b.toNumber)
  | .rem => .number (Number.remainder a.toNumber b.toNumber)
  | .lt => .bool (a.compare b == some .lt)
  | .le => .bool (a.compare b == some .lt || a.compare b == some .eq)
  | .gt => .bool (a.compare b == some .gt)
  | .ge => .bool (a.compare b == some .gt || a.compare b == some .eq)
  | .eq => .bool (a.looseEq b)
  | .notEq => .bool !a.looseEq b
  | .strictEq => .bool (a.strictEq b)
  | .strictNotEq => .bool !a.strictEq b
  | .and => if a.isTruthy then b else a
  | .or => if a.isTruthy then a else b

end Value
end Stencil
