import Stencil.Expr.Basic
import Stencil.Token.Scan

-- Expressions are read token by token, with a stack of the constructs that are still open. A
-- construct is settled, that is, turned into the operand of the construct around it, as late as
-- possible: when a token arrives that it cannot take in.
namespace Stencil.Expr

-- An open construct, with its parts so far.
inductive Open
  | unary (op : UnaryOp)
  | binary (lhs : Expr) (op : BinaryOp)
  | consequent (test : Expr)
  | alternate (test consequent : Expr)
  | group
  | index (base : Expr)
  | arguments (callee : Expr) (done : List Expr)
  | items (done : List Expr)
  | entry (done : List (String × Expr)) (key : String)

-- What the next token may be. `key` and `afterKey` hold the entries of the innermost object.
inductive Await
  | operand
  | operator (operand : Expr)
  | property (base : Expr)
  | key (done : List (String × Expr))
  | afterKey (done : List (String × Expr)) (key : String)

structure Reading where
  await : Await
  stack : List Open

namespace Reading

def start : Reading :=
  ⟨.operand, []⟩

-- Settles the operators on top of the stack that bind at least as tightly as `p`.
def settle (p : Nat) (e : Expr) : List Open → Expr × List Open
  | .unary op :: stack => settle p (.unary op e) stack
  | .binary lhs op :: stack =>
    if p ≤ op.precedence then settle p (.binary op lhs e) stack else (e, .binary lhs op :: stack)
  | stack => (e, stack)

-- Settles everything on top of the stack that an operand can end.
def settleAll (e : Expr) : List Open → Expr × List Open
  | .unary op :: stack => settleAll (.unary op e) stack
  | .binary lhs op :: stack => settleAll (.binary op lhs e) stack
  | .alternate test consequent :: stack => settleAll (.cond test consequent e) stack
  | stack => (e, stack)

-- The punctuator that closes a construct, once its operand is complete.
def closer : Open → Punct
  | .unary _ | .binary _ _ | .alternate _ _ | .consequent _ => .colon
  | .group | .arguments _ _ => .closeParen
  | .index _ | .items _ => .closeBracket
  | .entry _ _ => .closeBrace

def fault (kind : Token.Kind) : List Open → ExprFault
  | [] => .trailing kind
  | o :: _ => .found (.punct (closer o)) (some kind)

def stepOperand (stack : List Open) (kind : Token.Kind) : Except ExprFault Reading :=
  match kind with
  | .number x => .ok ⟨.operator (.literal (.number x)), stack⟩
  | .string s => .ok ⟨.operator (.literal (.string s)), stack⟩
  | .name x => .ok ⟨.operator (.ofName x), stack⟩
  | .punct p =>
    match p, stack with
    | .openParen, _ => .ok ⟨.operand, .group :: stack⟩
    | .openBracket, _ => .ok ⟨.operand, .items [] :: stack⟩
    | .openBrace, _ => .ok ⟨.key [], stack⟩
    | .closeParen, .arguments callee done :: stack => .ok ⟨.operator (.call callee done), stack⟩
    | .closeBracket, .items done :: stack => .ok ⟨.operator (.array done), stack⟩
    | p, _ =>
      match p.unary? with
      | some op => .ok ⟨.operand, .unary op :: stack⟩
      | none => .error (.found .expression (some kind))

-- A token that ends the operand `e`, which has been settled on the stack.
def stepEnd (e : Expr) (stack : List Open) (kind : Token.Kind) : Except ExprFault Reading :=
  match kind, stack with
  | .punct .colon, .consequent test :: stack => .ok ⟨.operand, .alternate test e :: stack⟩
  | .punct .comma, .arguments callee done :: stack =>
    .ok ⟨.operand, .arguments callee (done ++ [e]) :: stack⟩
  | .punct .comma, .items done :: stack => .ok ⟨.operand, .items (done ++ [e]) :: stack⟩
  | .punct .comma, .entry done key :: stack => .ok ⟨.key (done ++ [(key, e)]), stack⟩
  | .punct .closeParen, .group :: stack => .ok ⟨.operator e, stack⟩
  | .punct .closeParen, .arguments callee done :: stack =>
    .ok ⟨.operator (.call callee (done ++ [e])), stack⟩
  | .punct .closeBracket, .index base :: stack => .ok ⟨.operator (.index base e), stack⟩
  | .punct .closeBracket, .items done :: stack => .ok ⟨.operator (.array (done ++ [e])), stack⟩
  | .punct .closeBrace, .entry done key :: stack =>
    .ok ⟨.operator (.object (done ++ [(key, e)])), stack⟩
  | _, _ => .error (fault kind stack)

def stepOperator (e : Expr) (stack : List Open) (kind : Token.Kind) : Except ExprFault Reading :=
  match kind with
  | .punct .dot => .ok ⟨.property e, stack⟩
  | .punct .openBracket => .ok ⟨.operand, .index e :: stack⟩
  | .punct .openParen => .ok ⟨.operand, .arguments e [] :: stack⟩
  | .punct .question =>
    let (test, stack) := settle 0 e stack
    .ok ⟨.operand, .consequent test :: stack⟩
  | .punct p =>
    match p.binary? with
    | some op =>
      let (lhs, stack) := settle op.precedence e stack
      .ok ⟨.operand, .binary lhs op :: stack⟩
    | none => stepEnd (settleAll e stack).1 (settleAll e stack).2 kind
  | _ => stepEnd (settleAll e stack).1 (settleAll e stack).2 kind

def stepKey (done : List (String × Expr)) (stack : List Open) (kind : Token.Kind) :
    Except ExprFault Reading :=
  match kind with
  | .name x => .ok ⟨.afterKey done x, stack⟩
  | .string s => .ok ⟨.afterKey done s, stack⟩
  | .number x => .ok ⟨.afterKey done (Number.key x), stack⟩
  | .punct .closeBrace => .ok ⟨.operator (.object done), stack⟩
  | .punct _ => .error (.found .propertyKey (some kind))

-- A key without a value stands for the name of the same text.
def stepAfterKey (done : List (String × Expr)) (key : String) (stack : List Open)
    (kind : Token.Kind) : Except ExprFault Reading :=
  match kind with
  | .punct .colon => .ok ⟨.operand, .entry done key :: stack⟩
  | .punct .comma => .ok ⟨.key (done ++ [(key, .name key)]), stack⟩
  | .punct .closeBrace => .ok ⟨.operator (.object (done ++ [(key, .name key)])), stack⟩
  | _ => .error (.found (.punct .closeBrace) (some kind))

def step (r : Reading) (kind : Token.Kind) : Except ExprFault Reading :=
  match r.await with
  | .operand => stepOperand r.stack kind
  | .operator e => stepOperator e r.stack kind
  | .property base =>
    match kind with
    | .name x => .ok ⟨.operator (.member base x), r.stack⟩
    | _ => .error (.found .propertyName (some kind))
  | .key done => stepKey done r.stack kind
  | .afterKey done key => stepAfterKey done key r.stack kind

-- The end of the text.
def finish (r : Reading) : Except ExprFault Expr :=
  match r.await with
  | .operand => .error .ended
  | .operator e =>
    match settleAll e r.stack with
    | (e, []) => .ok e
    | (_, o :: _) => .error (.found (.punct (closer o)) none)
  | .property _ => .error (.found .propertyName none)
  | .key _ => .error (.found .propertyKey none)
  | .afterKey _ _ => .error (.found (.punct .closeBrace) none)

-- Reads the tokens of a text that ends at the offset `stop`.
def run (stop : Nat) : List Token → Reading → Except ExprError Expr
  | [], r =>
    match r.finish with
    | .ok e => .ok e
    | .error fault => .error (.ofFault fault stop)
  | t :: ts, r =>
    match r.step t.kind with
    | .ok r => run stop ts r
    | .error fault => .error (.ofFault fault t.offset)

end Reading

def read (cs : List Char) : Except ExprError Expr :=
  if cs.all isBlank then .error (.ofFault .blank 0)
  else
    match Token.scan cs with
    | .error e => .error e
    | .ok tokens => Reading.run (byteWidth cs) tokens .start

end Stencil.Expr
