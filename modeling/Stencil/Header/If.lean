import Stencil.Header.Each

namespace Stencil.IfHeader

-- The condition of a branch, unless it is blank.
def condition? (content : List Char) : Option (List Char) :=
  match trim content with
  | [] => none
  | condition => some condition

-- The content of an `else` may repeat the keyword of the conditional.
def elseCondition? (content : List Char) : Option (List Char) :=
  match trimStart content with
  | 'i' :: 'f' :: rest =>
    if rest.isEmpty || startsBlank rest then condition? rest else condition? ('i' :: 'f' :: rest)
  | content => condition? content

end Stencil.IfHeader
