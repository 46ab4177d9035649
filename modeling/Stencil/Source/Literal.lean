import Stencil.Json.Writer

namespace Stencil.Source

-- How a character is written in a literal. Line and paragraph separators are escaped too.
def escape (c : Char) : List Char :=
  if c.toNat == 0x2028 then ['\\', 'u', '2', '0', '2', '8']
  else if c.toNat == 0x2029 then ['\\', 'u', '2', '0', '2', '9']
  else Json.escape c

-- A text between quotation marks, without a line break in it.
def literal (s : String) : String :=
  .ofList ('"' :: s.toList.flatMap escape ++ ['"'])

end Stencil.Source
