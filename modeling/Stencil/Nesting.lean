import Stencil.Text.Width

namespace Stencil

-- Where a walk through a source text stands: in which string literal, and in how many brackets.
-- Brackets are only counted, and a bracket that closes nothing does not count.
structure Nesting where
  quote : Option Char
  escaped : Bool
  depth : Nat
deriving DecidableEq

namespace Nesting

def outside : Nesting :=
  ⟨none, false, 0⟩

def isOutside (n : Nesting) : Bool :=
  n.depth == 0 && n.quote.isNone

def feed (n : Nesting) (c : Char) : Nesting :=
  match n.quote with
  | some quote =>
    if n.escaped then { n with escaped := false }
    else if c == '\\' then { n with escaped := true }
    else if c == quote then { n with quote := none }
    else n
  | none =>
    if c == '\'' || c == '"' then { n with quote := some c }
    else if c == '(' || c == '[' || c == '{' then { n with depth := n.depth + 1 }
    else if c == ')' || c == ']' || c == '}' then { n with depth := n.depth - 1 }
    else n

-- What stands up to the character that leads outside, and what stands after that character.
def leave? (n : Nesting) : List Char → Option (List Char × List Char)
  | [] => none
  | c :: cs =>
    if (n.feed c).isOutside then some ([], cs)
    else
      match (n.feed c).leave? cs with
      | some (inner, rest) => some (c :: inner, rest)
      | none => none

end Nesting

-- What an opening parenthesis at the start of a text encloses, and what follows its end.
def enclosed? : List Char → Option (List Char × List Char)
  | '(' :: cs => (Nesting.outside.feed '(').leave? cs
  | _ => none

-- The offset at which the parenthesis that opens at the offset `start` ends.
def matchingParen (cs : List Char) (start : Nat) : Option Nat :=
  match (dropBytes start cs).bind enclosed? with
  | some (inner, _) => some (start + 1 + byteWidth inner)
  | none => none

-- The first `skip` characters belong to a separator that has been found.
def splitFrom (separator : List Char) : List Char → Nesting → (skip : Nat) → List (List Char)
  | [], _, _ => [[]]
  | _ :: cs, n, skip + 1 => splitFrom separator cs n skip
  | c :: cs, n, 0 =>
    if !separator.isEmpty && n.isOutside && separator.isPrefixOf (c :: cs) then
      [] :: splitFrom separator cs n (separator.length - 1)
    else
      match splitFrom separator cs (n.feed c) 0 with
      | piece :: pieces => (c :: piece) :: pieces
      | [] => [[c]]

-- The pieces of a text between the separators that stand outside of all brackets and strings.
def splitOutside (separator cs : List Char) : List (List Char) :=
  splitFrom separator cs .outside 0

end Stencil
