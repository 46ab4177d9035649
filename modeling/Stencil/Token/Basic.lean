import Stencil.Number.Text
import Stencil.Text.Quoted

namespace Stencil

inductive Punct
  | openParen | closeParen | openBracket | closeBracket | openBrace | closeBrace
  | comma | dot | colon | question
  | plus | minus | star | slash | percent | bang
  | less | lessEq | greater | greaterEq
  | eqEq | notEq | eqEqEq | notEqEq | andAnd | orOr
  -- Separates the accessors of a substitution and has no meaning inside an expression.
  | arrow
deriving DecidableEq

namespace Punct

def text : Punct → String
  | openParen => "("
  | closeParen => ")"
  | openBracket => "["
  | closeBracket => "]"
  | openBrace => "\x7b"
  | closeBrace => "\x7d"
  | comma => ","
  | dot => "."
  | colon => ":"
  | question => "?"
  | plus => "+"
  | minus => "-"
  | star => "*"
  | slash => "/"
  | percent => "%"
  | bang => "!"
  | less => "<"
  | lessEq => "<="
  | greater => ">"
  | greaterEq => ">="
  | eqEq => "=="
  | notEq => "!="
  | eqEqEq => "==="
  | notEqEq => "!=="
  | andAnd => "&&"
  | orOr => "||"
  | arrow => "=>"

-- The longest punctuator that a text starts with.
def read? : List Char → Option Punct
  | '=' :: '=' :: '=' :: _ => some eqEqEq
  | '!' :: '=' :: '=' :: _ => some notEqEq
  | '=' :: '=' :: _ => some eqEq
  | '!' :: '=' :: _ => some notEq
  | '<' :: '=' :: _ => some lessEq
  | '>' :: '=' :: _ => some greaterEq
  | '&' :: '&' :: _ => some andAnd
  | '|' :: '|' :: _ => some orOr
  | '=' :: '>' :: _ => some arrow
  | '(' :: _ => some openParen
  | ')' :: _ => some closeParen
  | '[' :: _ => some openBracket
  | ']' :: _ => some closeBracket
  | '{' :: _ => some openBrace
  | '}' :: _ => some closeBrace
  | ',' :: _ => some comma
  | '.' :: _ => some dot
  | ':' :: _ => some colon
  | '?' :: _ => some question
  | '+' :: _ => some plus
  | '-' :: _ => some minus
  | '*' :: _ => some star
  | '/' :: _ => some slash
  | '%' :: _ => some percent
  | '!' :: _ => some bang
  | '<' :: _ => some less
  | '>' :: _ => some greater
  | _ => none

end Punct

inductive Token.Kind
  | number (x : Float)
  | string (s : String)
  | name (s : String)
  | punct (p : Punct)
deriving DecidableEq

-- A token and the byte offset at which it starts.
structure Token where
  kind : Token.Kind
  offset : Nat
deriving DecidableEq

namespace Token

def Kind.describe : Kind → String
  | number x => "number " ++ Number.plain x
  | string s => "string " ++ Quoted.string s
  | name s => "identifier `" ++ s ++ "`"
  | punct p => "`" ++ p.text ++ "`"

-- What stands at a place of an expression: a token or its end.
def describe : Option Kind → String
  | some k => k.describe
  | none => "end of expression"

end Token
end Stencil
