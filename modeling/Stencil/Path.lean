namespace Stencil.Path

-- The texts between the slashes of a path. With slashes between them they are the path again.
def pieces : List Char → List (List Char)
  | [] => [[]]
  | '/' :: cs => [] :: pieces cs
  | c :: cs =>
    match pieces cs with
    | p :: ps => (c :: p) :: ps
    | [] => [[c]]

def ofPieces (ps : List (List Char)) : List Char :=
  List.intercalate ['/'] ps

-- Whether a piece leads nowhere.
def isIdle (p : List Char) : Bool :=
  p == [] || p == ['.']

inductive Part
  | root
  -- The dot that a path starts with.
  | here
  | parent
  | name (s : List Char)
deriving DecidableEq

-- Beyond its start, the idle pieces of a path do not count.
def part? (p : List Char) : Option Part :=
  if isIdle p then none
  else if p = ['.', '.'] then some .parent
  else some (.name p)

def parts (path : String) : List Part :=
  match pieces path.toList with
  | [] :: p :: ps => .root :: (p :: ps).filterMap part?
  | ['.'] :: ps => .here :: ps.filterMap part?
  | ps => ps.filterMap part?

def trimStart (ps : List (List Char)) : List (List Char) :=
  ps.dropWhile isIdle

def trimEnd (ps : List (List Char)) : List (List Char) :=
  (ps.reverse.dropWhile isIdle).reverse

-- What follows the first parts.
def dropParts : Nat → List (List Char) → List (List Char)
  | 0, ps => ps
  | _ + 1, [] => []
  | n + 1, p :: ps => if isIdle p then dropParts (n + 1) ps else dropParts n ps

def afterParts : Nat → List (List Char) → List Char
  | 0, [] :: p :: ps => '/' :: ofPieces (trimEnd (p :: ps))
  | 0, ['.'] :: ps => ofPieces (['.'] :: trimEnd ps)
  | 0, ps => ofPieces (trimEnd ps)
  | n + 1, [] :: p :: ps => ofPieces (trimEnd (trimStart (dropParts n (p :: ps))))
  | n + 1, ['.'] :: ps => ofPieces (trimEnd (trimStart (dropParts n ps)))
  | n, ps => ofPieces (trimEnd (trimStart (dropParts n ps)))

-- The path as seen from a directory that it lies in. The parts are compared, not their spelling.
def relative? (dir path : String) : Option String :=
  if (parts dir).isPrefixOf (parts path) then
    some (.ofList (afterParts (parts dir).length (pieces path.toList)))
  else none

def join (dir name : String) : String :=
  match dir.toList.getLast? with
  | none | some '/' => dir ++ name
  | _ => dir ++ "/" ++ name

end Stencil.Path
