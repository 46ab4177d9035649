import Stencil.Expr.Basic
import Stencil.Value.Coercion

namespace Stencil

inductive Temp.Kind
  -- Holds the value of a substitution while it is looked at.
  | value
  -- Collects the output of a loop.
  | buffer
deriving DecidableEq

-- A temporary belongs to a nesting depth of loops.
structure Temp where
  kind : Temp.Kind
  depth : Nat
deriving DecidableEq

namespace Temp

def name (t : Temp) : String :=
  match t.kind with
  | .value => "$v" ++ toString t.depth
  | .buffer => "$a" ++ toString t.depth

-- Shallow temporaries come first, and those of one depth values first.
def rank (t : Temp) : Nat :=
  match t.kind with
  | .value => 2 * t.depth
  | .buffer => 2 * t.depth + 1

-- Inserts into a list that ascends by rank, unless the temporary is there already.
def insert (t : Temp) : List Temp → List Temp
  | [] => [t]
  | u :: us =>
    if t.rank < u.rank then t :: u :: us
    else if t.rank = u.rank then u :: us
    else u :: insert t us

end Temp

-- What a template compiles to: one expression for its output. Loop variables are numbered slots.
inductive Code
  | text (s : String)
  | literal (v : Value)
  | slot (n : Nat)
  -- A name that is looked up in the data and then in the options.
  | ambient (name : String)
  | data
  | options
  | array (items : List Code)
  | object (entries : List (String × Code))
  | member (object : Code) (property : String)
  | index (object index : Code)
  | call (callee : Code) (arguments : List Code)
  | unary (op : UnaryOp) (operand : Code)
  | binary (op : BinaryOp) (lhs rhs : Code)
  | cond (test consequent alternate : Code)
  -- The value of an expression or, if that is a function, what it gives for the data and options.
  | dethunk (temp : Temp) (value : Code)
  -- The outputs of the body, which sees a key and a value of the container in two slots.
  | each (buffer : Temp) (slot : Nat) (key value : String) (container body : Code)
  -- The output of another template. Its name stands in for a selector that is undefined or null.
  | invoke (data options selector : Code) (name : Option String)
  | merge (sources : List Code)
deriving Inhabited

structure Program where
  body : Code
  maxDepth : Nat

namespace Code

def empty : Code :=
  .text ""

def concat (lhs rhs : Code) : Code :=
  .binary .add lhs rhs

def isUnary : Code → Bool
  | unary _ _ => true
  | _ => false

mutual

-- The node and all nodes below it, each before what is below it.
def nodes : Code → List Code
  | c@(text _) | c@(literal _) | c@(slot _) | c@(ambient _) | c@data | c@options => [c]
  | c@(array items) => c :: nodesAll items
  | c@(object entries) => c :: nodesEntries entries
  | c@(member o _) => c :: o.nodes
  | c@(index o i) => c :: (o.nodes ++ i.nodes)
  | c@(call callee arguments) => c :: (callee.nodes ++ nodesAll arguments)
  | c@(unary _ operand) => c :: operand.nodes
  | c@(binary _ lhs rhs) => c :: (lhs.nodes ++ rhs.nodes)
  | c@(cond test consequent alternate) =>
    c :: (test.nodes ++ consequent.nodes ++ alternate.nodes)
  | c@(dethunk _ value) => c :: value.nodes
  | c@(each _ _ _ _ container body) => c :: (container.nodes ++ body.nodes)
  | c@(invoke d o selector _) => c :: (d.nodes ++ o.nodes ++ selector.nodes)
  | c@(merge sources) => c :: nodesAll sources

def nodesAll : List Code → List Code
  | [] => []
  | c :: cs => c.nodes ++ nodesAll cs

def nodesEntries : List (String × Code) → List Code
  | [] => []
  | (_, c) :: entries => c.nodes ++ nodesEntries entries

end

def temp? : Code → Option Temp
  | dethunk temp _ => some temp
  | each buffer _ _ _ _ _ => some buffer
  | _ => none

def temps (c : Code) : List Temp :=
  (c.nodes.filterMap temp?).foldr Temp.insert []

-- A short text for what is called, for the message that it is no function.
def describe : Code → String
  | ambient name => name
  | data => "$data"
  | options => "$options"
  | slot n => "local " ++ toString n
  | member o property => o.describe ++ "." ++ property
  | index o _ => o.describe ++ "[...]"
  | call callee _ => callee.describe ++ "(...)"
  | literal v => v.text
  | _ => "expression"

end Code
end Stencil
