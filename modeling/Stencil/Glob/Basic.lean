namespace Stencil

-- A part of a pattern. Patterns are about the bytes of a path.
inductive Glob.Item
  | byte (b : UInt8)
  | anyByte
  | anyText
  -- Directories that lead to a path, possibly none.
  | leading
  -- Whatever lies below a directory.
  | inside
  -- Directories in the middle of a path, possibly none.
  | between
  | oneOf (negated : Bool) (ranges : List (UInt8 × UInt8))
  | choice (branches : List (List Glob.Item))
deriving Inhabited

structure Glob where
  items : List Glob.Item
deriving Inhabited

namespace Glob

def slash : UInt8 :=
  47

-- Whether a condition holds of the text or of what is left of it from some point on.
def someSuffix (p : List UInt8 → Bool) : List UInt8 → Bool
  | [] => p []
  | b :: bs => p (b :: bs) || someSuffix p bs

-- Whether a condition holds of what follows some slash.
def afterSlash (p : List UInt8 → Bool) : List UInt8 → Bool
  | [] => false
  | b :: bs => (b == slash && p bs) || afterSlash p bs

def inRanges (ranges : List (UInt8 × UInt8)) (b : UInt8) : Bool :=
  ranges.any fun r => r.1 ≤ b && b ≤ r.2

mutual

-- Whether an item demands nothing: a choice without a branch that demands something.
def isVoid : Item → Bool
  | .choice branches => areVoidBranches branches
  | _ => false

def areVoid : List Item → Bool
  | [] => true
  | item :: items => isVoid item && areVoid items

def areVoidBranches : List (List Item) → Bool
  | [] => true
  | branch :: branches => areVoid branch && areVoidBranches branches

end

mutual

-- Whether an item takes the start of a text such that the rest meets a condition.
def accepts (rest : List UInt8 → Bool) : Item → List UInt8 → Bool
  | .byte _, [] | .anyByte, [] | .inside, [] | .between, [] | .oneOf _ _, [] => false
  | .byte a, b :: bs => a == b && rest bs
  | .anyByte, _ :: bs => rest bs
  | .anyText, bs => someSuffix rest bs
  | .leading, bs => rest bs || afterSlash rest bs
  | .inside, b :: bs => b == slash && someSuffix rest bs
  | .between, b :: bs => b == slash && (rest bs || afterSlash rest bs)
  | .oneOf negated ranges, b :: bs => (inRanges ranges b != negated) && rest bs
  | .choice branches, bs =>
    if areVoidBranches branches then rest bs else acceptsSome rest branches bs

def acceptsAll (rest : List UInt8 → Bool) : List Item → List UInt8 → Bool
  | [], bs => rest bs
  | item :: items, bs => accepts (acceptsAll rest items) item bs

-- Branches that demand nothing are left out of a choice.
def acceptsSome (rest : List UInt8 → Bool) : List (List Item) → List UInt8 → Bool
  | [], _ => false
  | branch :: branches, bs =>
    (!areVoid branch && acceptsAll rest branch bs) || acceptsSome rest branches bs

end

-- Whether the pattern is about the whole path. The pattern of all directories is about every path.
def isMatch (g : Glob) (path : String) : Bool :=
  match g.items with
  | [.leading] => true
  | items => acceptsAll List.isEmpty items path.toUTF8.toList

end Glob
end Stencil
