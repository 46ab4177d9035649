import Stencil.Json.Basic
import Stencil.Number.Text

namespace Stencil.Json

def hexPlaces (n : Nat) : List Char :=
  [n / 4096 % 16, n / 256 % 16, n / 16 % 16, n % 16].map Nat.digitChar

-- How a character is written between quotation marks: marks, backslashes and control characters
-- are escaped.
def escape (c : Char) : List Char :=
  match c with
  | '"' => ['\\', '"']
  | '\\' => ['\\', '\\']
  | '\x08' => ['\\', 'b']
  | '\x0c' => ['\\', 'f']
  | '\n' => ['\\', 'n']
  | '\r' => ['\\', 'r']
  | '\t' => ['\\', 't']
  | c => if c.toNat < 0x20 then '\\' :: 'u' :: hexPlaces c.toNat else [c]

def quote (s : String) : String :=
  .ofList ('"' :: s.toList.flatMap escape ++ ['"'])

def Numeral.text : Numeral → String
  | int n => toString n
  | float x => Number.text x

mutual

def text : Json → String
  | null => "null"
  | bool b => if b then "true" else "false"
  | number n => n.text
  | string s => quote s
  | array items => "[" ++ ",".intercalate (itemTexts items) ++ "]"
  | object members => "\x7b" ++ ",".intercalate (memberTexts members) ++ "\x7d"

def itemTexts : List Json → List String
  | [] => []
  | x :: xs => text x :: itemTexts xs

def memberTexts : List (String × Json) → List String
  | [] => []
  | (name, x) :: members => (quote name ++ ":" ++ text x) :: memberTexts members

end
end Stencil.Json
