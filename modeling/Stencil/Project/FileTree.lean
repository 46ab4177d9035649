import Stencil.Path
import Stencil.Project.Files

namespace Stencil

-- A file below the working directory: the names that lead to it, and what it holds.
structure FileTree.Entry where
  path : List String
  text : Option String
deriving DecidableEq

-- The files below a working directory.
structure FileTree where
  -- What the working directory itself is called.
  cwd : String
  entries : List FileTree.Entry

namespace FileTree

def names (path : String) : List String :=
  ((Path.pieces path.toList).filter (!Path.isIdle ·)).map String.ofList

-- Writes a file, in place of the one that was there.
def write (t : FileTree) (path : String) (text : Option String) : FileTree :=
  { t with entries := t.entries.filter (·.path != names path) ++ [⟨names path, text⟩] }

def find? (t : FileTree) (place : List String) : Option Entry :=
  t.entries.find? (·.path == place)

-- Whether a place lies in a directory and is not the directory itself.
def liesIn (place dir : List String) : Bool :=
  dir.isPrefixOf place && place != dir

-- The directories are those that files lie in, and the working directory.
def isDirectory (t : FileTree) (place : List String) : Bool :=
  place.isEmpty || t.entries.any fun e => liesIn e.path place

-- Follows the pieces of a path from a place. Nothing lies in what is not a directory.
def follow (t : FileTree) (place : List String) : List (List Char) → Option (List String)
  | [] => some place
  | p :: ps =>
    if !t.isDirectory place then none
    else if Path.isIdle p then follow t place ps
    else if p = ['.', '.'] then if place.isEmpty then none else follow t place.dropLast ps
    else follow t (place ++ [.ofList p]) ps

-- The place that a path leads to. A path may start with the name of the working directory.
def locate? (t : FileTree) (path : String) : Option (List String) :=
  match ((Path.relative? t.cwd path).getD path).toList with
  | '/' :: _ => none
  | cs => t.follow [] (Path.pieces cs)

def read? (t : FileTree) (path : String) : Option (Option String) :=
  ((t.locate? path).bind t.find?).map (·.text)

def inside (t : FileTree) (dir : String) : List (String × Option String) :=
  match t.locate? dir with
  | none => []
  | some place =>
    t.entries.filterMap fun e =>
      if liesIn e.path place then
        some (Path.join dir ("/".intercalate (e.path.drop place.length)), e.text)
      else none

def files (t : FileTree) : Files :=
  ⟨t.read?, t.inside⟩

end FileTree
end Stencil
