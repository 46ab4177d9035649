import Stencil.Number.Decimal

namespace Stencil

-- A number without fraction and exponent is an integer if it fits 64 bits.
inductive Json.Numeral
  | int (n : Int)
  | float (x : Float)
deriving DecidableEq

-- A JSON document. The members of an object are kept as they are written, repeated names included.
inductive Json
  | null
  | bool (b : Bool)
  | number (n : Json.Numeral)
  | string (s : String)
  | array (items : List Json)
  | object (members : List (String × Json))
deriving Inhabited

def Json.Numeral.toFloat : Numeral → Float
  | int n => if n < 0 then -Float.ofNat n.natAbs else Float.ofNat n.natAbs
  | float x => x

end Stencil
