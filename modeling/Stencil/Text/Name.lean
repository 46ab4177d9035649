namespace Stencil

def isDigit (c : Char) : Bool :=
  '0' ≤ c && c ≤ '9'

def isLetter (c : Char) : Bool :=
  ('a' ≤ c && c ≤ 'z') || ('A' ≤ c && c ≤ 'Z')

-- A name starts with an ASCII letter, an underscore or a dollar sign; digits may follow.
def isNameStart (c : Char) : Bool :=
  isLetter c || c == '_' || c == '$'

def isNameChar (c : Char) : Bool :=
  isNameStart c || isDigit c

def isName : List Char → Bool
  | [] => false
  | c :: cs => isNameStart c && cs.all isNameChar

end Stencil
