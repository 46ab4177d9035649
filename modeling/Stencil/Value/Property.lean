import Stencil.Fields
import Stencil.Text.Width
import Stencil.Value.Coercion
import Stencil.Value.Error

namespace Stencil

-- The index that a property name stands for: a numeral of a 64-bit word, possibly with a plus sign.
-- A longer name that starts with a zero is no index.
def indexOfName? (name : String) : Option Nat :=
  match name.toList with
  | '0' :: _ :: _ => none
  | '+' :: ds => numeral? ds
  | ds => numeral? ds
where
  numeral? (ds : List Char) : Option Nat :=
    if !ds.isEmpty && ds.all isDigit && Decimal.digitsValue ds < UInt64.size then
      some (Decimal.digitsValue ds)
    else none

namespace Value

def get (v : Value) (name : String) : Except RenderError Value :=
  match v with
  | undefined => .error (.propertyOfUndefined name)
  | null => .error (.propertyOfNull name)
  | object _ fields => .ok ((Fields.get? fields name).getD .undefined)
  | array _ items =>
    if name = "length" then .ok (.number (Float.ofNat items.length))
    else .ok (((indexOfName? name).bind (items[·]?)).getD .undefined)
  | string s =>
    if name = "length" then .ok (.number (Float.ofNat (unitWidth s.toList)))
    else
      match (indexOfName? name).bind (s.toList[·]?) with
      | some c => .ok (.string (.singleton c))
      | none => .ok .undefined
  | function f => .ok (if name = "name" then .string f.name else .undefined)
  | bool _ | number _ => .ok .undefined

def getIndex (v key : Value) : Except RenderError Value :=
  v.get key.text

end Value
end Stencil
