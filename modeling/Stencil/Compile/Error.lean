import Stencil.Expr.Error

namespace Stencil

-- What is wrong with a directive.
inductive CompileFault
  | eachContainer
  | eachUnbalanced
  | eachNames
  | tmplSelector
  | tmplUnbalanced
  | tmplArguments (count : Nat)
  | tmplEmptyArgument
  | emptySubstitution
  | emptyAccessor
  | expression (e : ExprError)
  | missingCondition
  | elseNotLast
  | elseOutside
  | unknownKind (kind : String)
deriving DecidableEq

namespace CompileFault

def code : CompileFault → String
  | eachContainer | eachUnbalanced | eachNames => "invalid-each"
  | tmplSelector | tmplUnbalanced | tmplArguments _ | tmplEmptyArgument => "invalid-tmpl"
  | emptySubstitution | emptyAccessor | expression _ => "invalid-expression"
  | missingCondition => "missing-condition"
  | elseNotLast | elseOutside => "misplaced-else"
  | unknownKind _ => "unknown-kind"

def message : CompileFault → String
  | eachContainer => "Invalid each: missing container"
  | eachUnbalanced => "Invalid each: unbalanced parentheses"
  | eachNames => "Invalid each: invalid loop variables"
  | tmplSelector => "Invalid tmpl: missing selector"
  | tmplUnbalanced => "Invalid tmpl: unbalanced parentheses"
  | tmplArguments count =>
    "Invalid tmpl: expected at most 2 arguments, found " ++ toString count
  | tmplEmptyArgument => "Invalid tmpl: empty argument"
  | emptySubstitution => "Invalid expression: empty substitution"
  | emptyAccessor => "Invalid expression: empty accessor"
  | expression e => "Invalid expression: " ++ e.text
  | missingCondition => "Missing condition"
  | elseNotLast => "`else` without a condition must be the last branch"
  | elseOutside => "`else` outside of `if`"
  | unknownKind kind => "Unknown directive kind `" ++ kind ++ "`"

end CompileFault

-- Why a template does not compile, with the directive at fault in template syntax.
structure CompileError where
  fault : CompileFault
  directive : String
deriving DecidableEq

namespace CompileError

def code (e : CompileError) : String :=
  e.fault.code

def message (e : CompileError) : String :=
  e.fault.message

def text (e : CompileError) : String :=
  e.message ++ " in `" ++ e.directive ++ "`"

end CompileError
end Stencil
