import Stencil.Code.Scope
import Stencil.Compile.Error
import Stencil.Nesting
import Stencil.Text.Blank

namespace Stencil

def startsBlank (cs : List Char) : Bool :=
  cs.head?.any isBlank

-- The content of a loop directive: the names it binds, and the expression it runs over.
structure EachHeader where
  names : LoopNames
  container : List Char
deriving DecidableEq

namespace EachHeader

-- One name, or two with a comma between them.
def names? (defaults : LoopNames) (cs : List Char) : Option LoopNames :=
  let key := trim (cs.takeWhile (· != ','))
  match cs.dropWhile (· != ',') with
  | [] => if isName key then some { defaults with key := .ofList key } else none
  | _ :: cs =>
    let value := trim cs
    if isName key && isName value then some ⟨.ofList key, .ofList value⟩ else none

-- A parenthesis at the start holds names if blanks and a container follow it, or if there is a
-- comma in it. Otherwise it is part of the container.
def read (defaults : LoopNames) (content : List Char) : Except CompileFault EachHeader :=
  let content := trim content
  match content with
  | [] => .error .eachContainer
  | '(' :: _ =>
    match enclosed? content with
    | none => .error .eachUnbalanced
    | some (inner, rest) =>
      let isList := 1 < (splitOutside [','] inner).length
      match names? defaults inner, trim rest with
      | names, [] =>
        if names.isSome || isList then .error .eachContainer else .ok ⟨defaults, content⟩
      | names, container =>
        if !isList && !startsBlank rest then .ok ⟨defaults, content⟩
        else
          match names with
          | some names => .ok ⟨names, container⟩
          | none => .error .eachNames
  | _ => .ok ⟨defaults, content⟩

end EachHeader
end Stencil
