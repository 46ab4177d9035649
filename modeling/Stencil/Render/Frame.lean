import Stencil.Value.Basic

namespace Stencil

-- What a loop has rendered so far, piece by piece.
abbrev Buffer :=
  List String

namespace Buffer

def clear (_ : Buffer) : Buffer :=
  []

def push (b : Buffer) (piece : String) : Buffer :=
  b ++ [piece]

end Buffer

-- The working memory of one rendering: the slots of loop variables and, for each nesting depth, a
-- temporary value and a buffer of output.
structure Frame where
  slots : List Value
  values : List Value
  buffers : List Buffer

namespace Frame

def start (maxDepth : Nat) : Frame :=
  ⟨[], List.replicate (maxDepth + 1) .undefined, List.replicate (maxDepth + 1) []⟩

-- Puts an element into a list, which grows if it is too short.
def place {α : Type} (missing : α) (xs : List α) (i : Nat) (x : α) : List α :=
  (xs ++ List.replicate (i + 1 - xs.length) missing).set i x

def slot (f : Frame) (n : Nat) : Value :=
  f.slots[n]?.getD .undefined

def truncate (n : Nat) (f : Frame) : Frame :=
  { f with slots := f.slots.take n }

-- Binds a loop's key and value, and drops what an earlier round left behind.
def bind (n : Nat) (key value : Value) (f : Frame) : Frame :=
  { f with slots := f.slots.take n ++ [key, value] }

def putValue (depth : Nat) (v : Value) (f : Frame) : Frame :=
  { f with values := place .undefined f.values depth v }

def value (f : Frame) (depth : Nat) : Value :=
  f.values[depth]?.getD .undefined

def buffer (f : Frame) (depth : Nat) : Buffer :=
  f.buffers[depth]?.getD []

def putBuffer (depth : Nat) (b : Buffer) (f : Frame) : Frame :=
  { f with buffers := place [] f.buffers depth b }

end Frame
end Stencil
