import Stencil.Json.Basic
import Stencil.Number.Text
import Stencil.Text.Quoted
import Stencil.Tree.Basic

namespace Stencil

-- What a document that is no tree has in the wrong place.
inductive TreeError
  | wrongType (found : Json) (wanted : String)
  | emptyNode

namespace TreeError

def wantedTree : String :=
  "a sequence"

def wantedNode : String :=
  "a text string or a [kind, content, ...children] array"

def wantedText : String :=
  "a string"

-- A number that was written as a fraction always shows a point.
def fractionText (x : Float) : String :=
  let s := Number.plain x
  if s.toList.contains '.' then s else s ++ ".0"

def describe : Json → String
  | .null => "null"
  | .bool b => "boolean `" ++ (if b then "true" else "false") ++ "`"
  | .number (.int n) => "integer `" ++ toString n ++ "`"
  | .number (.float x) => "floating point `" ++ fractionText x ++ "`"
  | .string s => "string " ++ Quoted.string s
  | .array _ => "sequence"
  | .object _ => "map"

def message : TreeError → String
  | wrongType found wanted => "invalid type: " ++ describe found ++ ", expected " ++ wanted
  | emptyNode => "invalid length 0, expected " ++ wantedNode

end TreeError

namespace Node

mutual

-- A text is a string, and a directive an array of its kind, its content and its children. The
-- content may be left out.
def ofJson : Json → Except TreeError Node
  | .string s => .ok (.text s)
  | .array [] => .error .emptyNode
  | .array [.string kind] => .ok (.tag kind "" [])
  | .array (.string kind :: .string content :: children) =>
    match listOfJson children with
    | .ok children => .ok (.tag kind content children)
    | .error e => .error e
  | .array (.string kind :: .null :: children) =>
    match listOfJson children with
    | .ok children => .ok (.tag kind "" children)
    | .error e => .error e
  | .array (.string _ :: content :: _) => .error (.wrongType content TreeError.wantedText)
  | .array (kind :: _) => .error (.wrongType kind TreeError.wantedText)
  | found => .error (.wrongType found TreeError.wantedNode)

def listOfJson : List Json → Except TreeError (List Node)
  | [] => .ok []
  | x :: xs =>
    match ofJson x with
    | .error e => .error e
    | .ok node =>
      match listOfJson xs with
      | .error e => .error e
      | .ok nodes => .ok (node :: nodes)

end

def treeOfJson : Json → Except TreeError (List Node)
  | .array nodes => listOfJson nodes
  | found => .error (.wrongType found TreeError.wantedTree)

mutual

def toJson : Node → Json
  | text s => .string s
  | tag kind content children => .array (.string kind :: .string content :: listToJson children)

def listToJson : List Node → List Json
  | [] => []
  | node :: nodes => node.toJson :: listToJson nodes

end

def treeToJson (nodes : List Node) : Json :=
  .array (listToJson nodes)

end Node
end Stencil
