namespace Stencil

-- A function is known by its identity. What a call of it does is up to the host.
structure Function where
  id : Nat
  name : String
deriving DecidableEq, Inhabited

-- The values of expressions. Arrays and objects have an identity of their own, so that two of them
-- can be told apart when their contents agree; the fields of an object are in insertion order.
inductive Value
  | undefined
  | null
  | bool (b : Bool)
  | number (x : Float)
  | string (s : String)
  | array (id : Nat) (items : List Value)
  | object (id : Nat) (fields : List (String × Value))
  | function (f : Function)
deriving Inhabited

namespace Value

def isNullish : Value → Bool
  | undefined | null => true
  | _ => false

def isCallable : Value → Bool
  | function _ => true
  | _ => false

-- Whether the value is an array, an object or a function.
def isCompound : Value → Bool
  | array _ _ | object _ _ | function _ => true
  | _ => false

def isString : Value → Bool
  | string _ => true
  | _ => false

def typeName : Value → String
  | undefined => "undefined"
  | null | array _ _ | object _ _ => "object"
  | bool _ => "boolean"
  | number _ => "number"
  | string _ => "string"
  | function _ => "function"

def isTruthy : Value → Bool
  | undefined | null => false
  | bool b => b
  | number x => !(x == 0 || x.isNaN)
  | string s => !s.isEmpty
  | array _ _ | object _ _ | function _ => true

def fields? : Value → Option (List (String × Value))
  | object _ fields => some fields
  | _ => none

end Value
end Stencil
