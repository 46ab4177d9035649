import Stencil.Token.Basic

namespace Stencil

inductive UnaryOp
  | not | neg | plus
deriving DecidableEq

def UnaryOp.text : UnaryOp → String
  | not => "!"
  | neg => "-"
  | plus => "+"

inductive BinaryOp
  | mul | div | rem | add | sub
  | lt | le | gt | ge
  | eq | notEq | strictEq | strictNotEq
  | and | or
deriving DecidableEq

namespace BinaryOp

def text : BinaryOp → String
  | mul => "*"
  | div => "/"
  | rem => "%"
  | add => "+"
  | sub => "-"
  | lt => "<"
  | le => "<="
  | gt => ">"
  | ge => ">="
  | eq => "=="
  | notEq => "!="
  | strictEq => "==="
  | strictNotEq => "!=="
  | and => "&&"
  | or => "||"

-- The higher, the tighter the operator binds.
def precedence : BinaryOp → Nat
  | or => 1
  | and => 2
  | eq | notEq | strictEq | strictNotEq => 3
  | lt | le | gt | ge => 4
  | add | sub => 5
  | mul | div | rem => 6

-- Whether the right operand is evaluated only if the left one does not decide the result.
def isLogical : BinaryOp → Bool
  | and | or => true
  | _ => false

end BinaryOp

namespace Punct

def unary? : Punct → Option UnaryOp
  | bang => some .not
  | minus => some .neg
  | plus => some .plus
  | _ => none

def binary? : Punct → Option BinaryOp
  | star => some .mul
  | slash => some .div
  | percent => some .rem
  | plus => some .add
  | minus => some .sub
  | less => some .lt
  | lessEq => some .le
  | greater => some .gt
  | greaterEq => some .ge
  | eqEq => some .eq
  | notEq => some .notEq
  | eqEqEq => some .strictEq
  | notEqEq => some .strictNotEq
  | andAnd => some .and
  | orOr => some .or
  | _ => none

end Punct

inductive Literal
  | undefined
  | null
  | bool (b : Bool)
  | number (x : Float)
  | string (s : String)
deriving DecidableEq

inductive Expr
  | literal (l : Literal)
  | name (x : String)
  | array (items : List Expr)
  | object (entries : List (String × Expr))
  | member (object : Expr) (property : String)
  | index (object index : Expr)
  | call (callee : Expr) (arguments : List Expr)
  | unary (op : UnaryOp) (operand : Expr)
  | binary (op : BinaryOp) (lhs rhs : Expr)
  | cond (test consequent alternate : Expr)

-- The meaning of a name outside of property positions: four names are literals.
def Expr.ofName : String → Expr
  | "true" => .literal (.bool true)
  | "false" => .literal (.bool false)
  | "null" => .literal .null
  | "undefined" => .literal .undefined
  | x => .name x

end Stencil
