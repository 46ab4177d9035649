namespace Stencil.Source

-- Source text in the making: the text so far, how deep its lines are indented, and the names of the
-- loop variables by slot.
structure Writer where
  code : String
  level : Nat
  names : List String

namespace Writer

def start : Writer :=
  ⟨"", 0, []⟩

def push (s : String) (w : Writer) : Writer :=
  { w with code := w.code ++ s }

def newline (w : Writer) : Writer :=
  w.push (.ofList ('\n' :: List.replicate (2 * w.level) ' '))

def indent (w : Writer) : Writer :=
  { w with level := w.level + 1 }

def dedent (w : Writer) : Writer :=
  { w with level := w.level - 1 }

-- The number of bytes written so far.
def offset (w : Writer) : Nat :=
  w.code.utf8ByteSize

-- The number of names in scope, from which new ones are bound.
def mark (w : Writer) : Nat :=
  w.names.length

def bind (key value : String) (w : Writer) : Writer :=
  { w with names := w.names ++ [key, value] }

def unbind (mark : Nat) (w : Writer) : Writer :=
  { w with names := w.names.take mark }

def nameOf (w : Writer) (slot : Nat) : String :=
  w.names[slot]?.getD ("$l" ++ toString slot)

end Writer
end Stencil.Source
