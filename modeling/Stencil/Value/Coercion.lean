import Stencil.Number.Text
import Stencil.Text.Blank
import Stencil.Value.Basic

namespace Stencil

-- The number that a text stands for: blank text is zero, and what is no numeral is no number.
def Number.ofText (s : String) : Float :=
  match trim s.toList with
  | [] => 0
  | '-' :: cs => -magnitude cs
  | '+' :: cs => magnitude cs
  | cs => magnitude cs
where
  magnitude (cs : List Char) : Float :=
    if cs == "Infinity".toList then Decimal.infinity
    else
      match Decimal.read? cs with
      | some d => d.toFloat
      | none => Decimal.nan

namespace Value

mutual

def text : Value → String
  | undefined => "undefined"
  | null => "null"
  | bool b => if b then "true" else "false"
  | number x => Number.text x
  | string s => s
  | array _ items => ",".intercalate (itemTexts items)
  | object _ _ => "[object Object]"
  | function f => "function " ++ f.name ++ "() \x7b [native code] \x7d"

-- Items that are undefined or null show as nothing.
def itemTexts : List Value → List String
  | [] => []
  | v :: vs => (if v.isNullish then "" else v.text) :: itemTexts vs

end

def toNumber : Value → Float
  | undefined => Decimal.nan
  | null => 0
  | bool b => if b then 1 else 0
  | number x => x
  | v => Number.ofText v.text

-- Arrays, objects and functions take part in sums and comparisons as their texts.
def primitive (v : Value) : Value :=
  if v.isCompound then .string v.text else v

end Value
end Stencil
