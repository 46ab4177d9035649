import Stencil.Text.Visible

namespace Stencil.Quoted

-- How messages show one character of a text that stands between two marks `quote`.
def shown (quote c : Char) : List Char :=
  match c with
  | '\x00' => ['\\', '0']
  | '\t' => ['\\', 't']
  | '\n' => ['\\', 'n']
  | '\r' => ['\\', 'r']
  | '\\' => ['\\', '\\']
  | c =>
    if c == quote then ['\\', c]
    else if isVisible c then [c]
    else ['\\', 'u', '{'] ++ Nat.toDigits 16 c.toNat ++ ['}']

def char (c : Char) : String :=
  .ofList (['\''] ++ shown '\'' c ++ ['\''])

def string (s : String) : String :=
  .ofList (['"'] ++ s.toList.flatMap (shown '"') ++ ['"'])

end Stencil.Quoted
