import Stencil.Header.Each

namespace Stencil

-- The content of a sub-template directive: the data and options to pass on, as far as they are
-- given, and the selector of the template.
structure TmplHeader where
  data : Option (List Char)
  options : Option (List Char)
  selector : List Char
deriving DecidableEq

namespace TmplHeader

def arguments (inner : List Char) : List (List Char) :=
  if (trim inner).isEmpty then [] else (splitOutside [','] inner).map trim

def ofSelector (selector : List Char) : TmplHeader :=
  ⟨none, none, selector⟩

def ofArguments (arguments : List (List Char)) (selector : List Char) :
    Except CompileFault TmplHeader :=
  if 2 < arguments.length then .error (.tmplArguments arguments.length)
  else if arguments.any List.isEmpty then .error .tmplEmptyArgument
  else .ok ⟨arguments[0]?, arguments[1]?, selector⟩

-- A parenthesis at the start holds arguments if a selector follows it. One argument has to be
-- followed by a blank, for it could be part of the selector.
def read (content : List Char) : Except CompileFault TmplHeader :=
  let content := trim content
  match content with
  | [] => .error .tmplSelector
  | '(' :: _ =>
    match enclosed? content with
    | none => .error .tmplUnbalanced
    | some (inner, rest) =>
      match arguments inner, trim rest with
      | [_], [] => .ok (ofSelector content)
      | _, [] => .error .tmplSelector
      | [argument], selector =>
        if startsBlank rest then ofArguments [argument] selector else .ok (ofSelector content)
      | arguments, selector => ofArguments arguments selector
  | _ => .ok (ofSelector content)

end TmplHeader
end Stencil
