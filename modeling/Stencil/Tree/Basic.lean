import Stencil.Text.Blank

namespace Stencil

-- A template is a list of nodes: text, and directives with a kind, a content and nested nodes.
inductive Node
  | text (s : String)
  | tag (kind content : String) (children : List Node)
deriving Inhabited

namespace Node

mutual

def count : Node → Nat
  | text _ => 1
  | tag _ _ children => 1 + countAll children

def countAll : List Node → Nat
  | [] => 0
  | node :: nodes => node.count + countAll nodes

end

-- How a directive opens in template syntax.
def header (kind content : String) : String :=
  let content := String.ofList (trim content.toList)
  if kind = "=" then "$\x7b" ++ content ++ "\x7d"
  else if content.isEmpty then "\x7b" ++ kind ++ "\x7d"
  else "\x7b" ++ kind ++ " " ++ content ++ "\x7d"

mutual

-- A node in template syntax. What is nested in a substitution does not show, and an `else` has no
-- end of its own.
def source : Node → String
  | text s => s
  | tag kind content children =>
    if kind = "=" then header kind content
    else if kind = "else" then header kind content ++ sourceAll children
    else header kind content ++ sourceAll children ++ "\x7b/" ++ kind ++ "\x7d"

def sourceAll : List Node → String
  | [] => ""
  | node :: nodes => node.source ++ sourceAll nodes

end

def isElse : Node → Bool
  | tag kind _ _ => kind == "else"
  | text _ => false

end Node
end Stencil
