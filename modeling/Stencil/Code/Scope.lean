import Stencil.Code.Basic

namespace Stencil

-- The names that a loop gives to the key and the value of an element.
structure LoopNames where
  key : String
  value : String
deriving DecidableEq

-- The loops around a place in a template, the innermost one first. The names of the loop at nesting
-- level `i` have the slots `2 * i` and `2 * i + 1`.
structure Scope where
  loops : List LoopNames
  depth : Nat
  maxDepth : Nat
deriving DecidableEq

namespace Scope

def empty : Scope :=
  ⟨[], 0, 0⟩

def slotCount (s : Scope) : Nat :=
  2 * s.loops.length

def push (names : LoopNames) (s : Scope) : Scope :=
  { s with loops := names :: s.loops }

def pop (s : Scope) : Scope :=
  { s with loops := s.loops.tail }

def enter (s : Scope) : Scope :=
  { s with depth := s.depth + 1, maxDepth := max s.maxDepth (s.depth + 1) }

def leave (s : Scope) : Scope :=
  { s with depth := s.depth - 1 }

-- Inner names hide outer ones, and a value hides a key of the same name.
def slotIn? (name : String) : List LoopNames → Option Nat
  | [] => none
  | l :: ls =>
    if l.value = name then some (2 * ls.length + 1)
    else if l.key = name then some (2 * ls.length)
    else slotIn? name ls

def slot? (s : Scope) (name : String) : Option Nat :=
  slotIn? name s.loops

def namesOf : List LoopNames → List (String × Nat)
  | [] => []
  | l :: ls => namesOf ls ++ [(l.key, 2 * ls.length), (l.value, 2 * ls.length + 1)]

-- All names in scope with their slots, outer ones first.
def names (s : Scope) : List (String × Nat) :=
  namesOf s.loops

def valueTemp (s : Scope) : Temp :=
  ⟨.value, s.depth⟩

def bufferTemp (s : Scope) : Temp :=
  ⟨.buffer, s.depth⟩

def resolve (s : Scope) (name : String) : Code :=
  match s.slot? name with
  | some n => .slot n
  | none =>
    if name = "$data" then .data
    else if name = "$options" then .options
    else .ambient name

end Scope

def Literal.value : Literal → Value
  | undefined => .undefined
  | null => .null
  | bool b => .bool b
  | number x => .number x
  | string s => .string s

namespace Expr

mutual

-- The code of an expression whose names are read in a scope.
def toCode (s : Scope) : Expr → Code
  | literal l => .literal l.value
  | name x => s.resolve x
  | array items => .array (listToCode s items)
  | object entries => .object (entriesToCode s entries)
  | member o property => .member (o.toCode s) property
  | index o i => .index (o.toCode s) (i.toCode s)
  | call callee arguments => .call (callee.toCode s) (listToCode s arguments)
  | unary op operand => .unary op (operand.toCode s)
  | binary op lhs rhs => .binary op (lhs.toCode s) (rhs.toCode s)
  | cond test consequent alternate =>
    .cond (test.toCode s) (consequent.toCode s) (alternate.toCode s)

def listToCode (s : Scope) : List Expr → List Code
  | [] => []
  | e :: es => e.toCode s :: listToCode s es

def entriesToCode (s : Scope) : List (String × Expr) → List (String × Code)
  | [] => []
  | (key, e) :: entries => (key, e.toCode s) :: entriesToCode s entries

end
end Expr
end Stencil
