import Stencil.Compile.Basic
import Stencil.Render.Eval

-- What a template means, read off its tree: there are no slots, no temporaries and no code, only
-- the names of the loop variables with their values.
namespace Stencil

-- The loop variables around a place in a template, the innermost ones first.
abbrev Env :=
  List (String × Value)

namespace Env

-- Within a loop, a value hides a key of the same name.
def bind (names : LoopNames) (key value : Value) (env : Env) : Env :=
  (names.value, value) :: (names.key, key) :: env

def get? (env : Env) (name : String) : Option Value :=
  Fields.get? env name

-- All loop variables as fields, outer ones first.
def fields (env : Env) : List (String × Value) :=
  env.reverse

end Env

abbrev Meaning (σ : Type) :=
  Act σ RenderError

namespace Meaning

variable {σ : Type}

-- A directive that cannot be read has no output.
def unread {α : Type} (fault : CompileFault) : Meaning σ α :=
  Act.fail (.custom fault.message)

def fresh (host : Host σ) : Meaning σ Nat :=
  fun store =>
    let (id, store) := host.fresh store
    (.ok id, store)

def merge (host : Host σ) (sources : List Value) : Meaning σ (List (String × Value)) :=
  fun store =>
    let (fields, store) := host.merge sources store
    (.ok fields, store)

def newArray (host : Host σ) (items : List Value) : Meaning σ Value := do
  return .array (← fresh host) items

def newObject (host : Host σ) (fields : List (String × Value)) : Meaning σ Value := do
  return .object (← fresh host) fields

-- The failure to call a value does not tell how the value was written.
def call (host : Host σ) (callee : Value) (arguments : List Value) : Meaning σ Value :=
  match callee with
  | .function f => host.call f arguments
  | _ => Act.fail (.notCallable "")

def name (input : Input) (env : Env) (x : String) : Value :=
  match env.get? x with
  | some v => v
  | none =>
    if x = "$data" then input.data
    else if x = "$options" then input.options
    else input.lookup x

mutual

def expression (host : Host σ) (input : Input) (env : Env) : Expr → Meaning σ Value
  | .literal l => return l.value
  | .name x => return name input env x
  | .array items => do newArray host (← expressions host input env items)
  | .object entries => do newObject host (Fields.ofList (← namedExpressions host input env entries))
  | .member o property => do Act.ofExcept ((← expression host input env o).get property)
  | .index o i => do
    let o ← expression host input env o
    let i ← expression host input env i
    Act.ofExcept (o.getIndex i)
  | .call callee arguments => do
    let f ← expression host input env callee
    call host f (← expressions host input env arguments)
  | .unary op operand => do return (← expression host input env operand).unary op
  | .binary op lhs rhs => do
    let lhs ← expression host input env lhs
    match op, lhs.isTruthy with
    | .and, false | .or, true => return lhs
    | .and, true | .or, false => expression host input env rhs
    | op, _ => return lhs.binary op (← expression host input env rhs)
  | .cond test consequent alternate => do
    if (← expression host input env test).isTruthy then expression host input env consequent
    else expression host input env alternate

def expressions (host : Host σ) (input : Input) (env : Env) : List Expr → Meaning σ (List Value)
  | [] => return []
  | e :: es => do
    let v ← expression host input env e
    let vs ← expressions host input env es
    return v :: vs

def namedExpressions (host : Host σ) (input : Input) (env : Env) :
    List (String × Expr) → Meaning σ (List (String × Value))
  | [] => return []
  | (key, e) :: entries => do
    let v ← expression host input env e
    let vs ← namedExpressions host input env entries
    return (key, v) :: vs

end

-- The value of the expression that a text spells.
def source (host : Host σ) (input : Input) (env : Env) (cs : List Char) : Meaning σ Value :=
  match Expr.read cs with
  | .ok e => expression host input env e
  | .error e => unread (.expression e)

-- A value or, if it is a function, what it gives for the data and options.
def dethunk (host : Host σ) (input : Input) (v : Value) : Meaning σ Value :=
  match v with
  | .function f => host.call f [input.data, input.options]
  | v => return v

-- The functions that a substitution names after its arrows. The last one is evaluated first.
def accessors (host : Host σ) (input : Input) (env : Env) :
    List (List Char) → Meaning σ (List Value)
  | [] => return []
  | piece :: pieces => do
    let fs ← accessors host input env pieces
    let f ← source host input env (trim piece)
    return f :: fs

-- Passes a value through functions, the first one first.
def pass (host : Host σ) : List Value → Value → Meaning σ Value
  | [], v => return v
  | f :: fs, v => do pass host fs (← call host f [v])

def substitution (host : Host σ) (input : Input) (env : Env) (content : List Char) :
    Meaning σ Value :=
  match splitOutside ['=', '>'] content with
  | [] => unread .emptySubstitution
  | base :: pieces => do
    let fs ← accessors host input env pieces
    let v ← source host input env (trim base)
    pass host fs (← dethunk host input v)

def condition (host : Host σ) (input : Input) (env : Env) (content : List Char) :
    Meaning σ Value :=
  match IfHeader.condition? content with
  | some condition => source host input env condition
  | none => unread .missingCondition

-- The data for a sub-template that is given none: the data at hand, with the loop variables.
def passedData (host : Host σ) (input : Input) (env : Env) : Meaning σ Value :=
  if env.isEmpty then return input.data
  else do
    let bound ← newObject host (Fields.ofList env.fields)
    newObject host (← merge host [input.data, bound])

def argument (host : Host σ) (input : Input) (env : Env) (given : Option (List Char))
    (missing : Meaning σ Value) : Meaning σ Value :=
  match given with
  | some cs => source host input env cs
  | none => missing

-- A selector that is a bare name, and not that of a loop variable, stands for itself if it has no
-- value.
def selector (host : Host σ) (input : Input) (env : Env) (cs : List Char) : Meaning σ Value :=
  match Expr.read cs with
  | .ok (.name x) =>
    let v := name input env x
    let isBare := (env.get? x).isNone && x != "$data" && x != "$options"
    return if isBare && v.isNullish then .string x else v
  | _ => source host input env cs

def invocation (host : Host σ) (input : Input) (env : Env) (content : List Char) :
    Meaning σ String :=
  match TmplHeader.read content with
  | .error fault => unread fault
  | .ok header => do
    let d ← argument host input env header.data (passedData host input env)
    let o ← argument host input env header.options (pure input.options)
    let s ← selector host input env header.selector
    host.invoke s d o

-- One output after the other.
def concat (x y : Meaning σ String) : Meaning σ String := do
  let first ← x
  let rest ← y
  return first ++ rest

-- The outputs of a loop for each pair, one after the other.
def rounds (body : Value → Value → Meaning σ String) : List (Value × Value) → Meaning σ String
  | [] => return ""
  | (key, value) :: pairs => concat (body key value) (rounds body pairs)

mutual

def node (defaults : LoopNames) (host : Host σ) (input : Input) (env : Env) :
    Node → Meaning σ String
  | .text s => return s
  | .tag kind content children =>
    match kind with
    | "=" => do return (← substitution host input env content.toList).text
    | "if" => do
      if (← condition host input env content.toList).isTruthy then
        branch defaults host input env children
      else otherwise defaults host input env children
    | "each" =>
      match EachHeader.read defaults content.toList with
      | .error fault => unread fault
      | .ok header => do
        let container ← source host input env header.container
        rounds
          (fun key value => nodes defaults host input (env.bind header.names key value) children)
          (host.pairs container)
    | "tmpl" => invocation host input env content.toList
    | "else" => unread .elseOutside
    | kind => unread (.unknownKind kind)

def nodes (defaults : LoopNames) (host : Host σ) (input : Input) (env : Env) :
    List Node → Meaning σ String
  | [] => return ""
  | n :: ns => concat (node defaults host input env n) (nodes defaults host input env ns)

-- The output of a branch of a conditional, which the next `else` ends.
def branch (defaults : LoopNames) (host : Host σ) (input : Input) (env : Env) :
    List Node → Meaning σ String
  | [] => return ""
  | .tag "else" _ _ :: _ => return ""
  | n :: ns => concat (node defaults host input env n) (branch defaults host input env ns)

-- The output of the first branch that applies among those that an `else` starts.
def otherwise (defaults : LoopNames) (host : Host σ) (input : Input) (env : Env) :
    List Node → Meaning σ String
  | [] => return ""
  | .tag "else" content children :: ns => do
    let applies ←
      match IfHeader.elseCondition? content.toList with
      | some condition => Value.isTruthy <$> source host input env condition
      | none => pure true
    if applies then
      concat (nodes defaults host input env children) (branch defaults host input env ns)
    else otherwise defaults host input env ns
  | _ :: ns => otherwise defaults host input env ns

end

-- The output of a template for its data and options.
def template (defaults : LoopNames) (host : Host σ) (data options : Value) (tree : List Node) :
    Meaning σ String := do
  let i ← fresh host
  let j ← fresh host
  nodes defaults host ⟨Program.orEmpty i data, Program.orEmpty j options⟩ [] tree

end Meaning
end Stencil
