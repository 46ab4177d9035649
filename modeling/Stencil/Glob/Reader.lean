import Stencil.Glob.Basic

namespace Stencil.Glob

-- The ranges of a class between brackets so far, the last one first.
structure ClassReading where
  ranges : List (Char × Char)
  -- Whether a hyphen waits for the end of the last range.
  inRange : Bool

def ClassReading.feed? (r : ClassReading) (c : Char) : Option ClassReading :=
  match r.ranges, r.inRange with
  | (first, _) :: ranges, true => if c < first then none else some ⟨(first, c) :: ranges, false⟩
  | ranges, _ => some (if c = '-' && !ranges.isEmpty then ⟨ranges, true⟩ else ⟨(c, c) :: ranges, false⟩)

-- A hyphen at the end of a class stands for itself.
def ClassReading.finish (r : ClassReading) : List (Char × Char) :=
  (if r.inRange then ('-', '-') :: r.ranges else r.ranges).reverse

-- The ranges of a class and the number of characters up to its end. Its first character never ends
-- it.
def classRest? (r : ClassReading) : List Char → Option (List (Char × Char) × Nat)
  | [] => none
  | c :: cs =>
    if c = ']' && !r.ranges.isEmpty then some (r.finish, 1)
    else
      match r.feed? c with
      | none => none
      | some r =>
        match classRest? r cs with
        | some (ranges, n) => some (ranges, n + 1)
        | none => none

-- A class is about single bytes: a range goes from the last byte of its start to the first byte of
-- its end, and their other bytes stand for themselves.
def byteRanges (r : Char × Char) : List (UInt8 × UInt8) :=
  let start := String.utf8EncodeChar r.1
  let finish := String.utf8EncodeChar r.2
  if r.1 = r.2 then start.map fun b => (b, b)
  else
    start.dropLast.map (fun b => (b, b))
      ++ [(start.getLast?.getD 0, finish.head?.getD 0)]
      ++ finish.tail.map (fun b => (b, b))

def class? : List Char → Option (Item × Nat)
  | '!' :: cs | '^' :: cs =>
    (classRest? ⟨[], false⟩ cs).map fun (ranges, n) => (.oneOf true (ranges.flatMap byteRanges), n + 1)
  | cs => (classRest? ⟨[], false⟩ cs).map fun (ranges, n) => (.oneOf false (ranges.flatMap byteRanges), n)

-- A choice that is not closed yet: what stands before it, and its branches so far, both reversed.
structure OpenChoice where
  before : List Item
  branches : List (List Item)

structure Reading where
  -- The items of the current branch, the last one first.
  items : List Item
  choices : List OpenChoice
  previous : Option Char

namespace Reading

def start : Reading :=
  ⟨[], [], none⟩

def add (r : Reading) (items : List Item) : Reading :=
  { r with items := items.reverse ++ r.items }

def literal (r : Reading) (c : Char) : Reading :=
  r.add ((String.utf8EncodeChar c).map .byte)

def inChoice (r : Reading) : Bool :=
  !r.choices.isEmpty

-- Two stars that are a whole component of the path stand for directories. The number says how many
-- more characters they take with them.
def doubleStar (r : Reading) (next : Option Char) : Reading × Nat :=
  let stars := (r.add [.anyText, .anyText], 0)
  match r.items with
  | [] =>
    match next with
    | none => (r.add [.leading], 0)
    | some '/' => (r.add [.leading], 1)
    | _ => stars
  | last :: items =>
    let starts := r.previous == some '/'
      || (r.inChoice && (r.previous == some ',' || r.previous == some '{'))
    let ends := next == none || (r.inChoice && (next == some ',' || next == some '}'))
    if !starts then stars
    else if ends then ({ r with items := widen last .inside :: items }, 0)
    else if next == some '/' then ({ r with items := widen last .between :: items }, 1)
    else stars
where
  -- The slash before the stars belongs to them, unless stars have taken it already.
  widen : Item → Item → Item
    | .leading, _ => .leading
    | .inside, _ => .inside
    | _, item => item

def openChoice (r : Reading) : Reading :=
  { r with items := [], choices := ⟨r.items, []⟩ :: r.choices }

def nextBranch (r : Reading) : Reading :=
  match r.choices with
  | [] => r.literal ','
  | c :: choices =>
    { r with items := [], choices := { c with branches := r.items.reverse :: c.branches } :: choices }

def closeChoice? (r : Reading) : Option Reading :=
  match r.choices with
  | [] => none
  | c :: choices =>
    let branches := (r.items.reverse :: c.branches).reverse
    some { r with items := .choice branches :: c.before, choices }

-- Reads a character that something follows, and says how many more characters are taken with it.
def step? (r : Reading) (c : Char) (cs : List Char) : Option (Reading × Nat) :=
  match c, cs with
  | '?', _ => some (r.add [.anyByte], 0)
  | '*', '*' :: cs =>
    let (r, n) := r.doubleStar cs.head?
    some (r, n + 1)
  | '*', _ => some (r.add [.anyText], 0)
  | '[', cs => (class? cs).map fun (item, n) => (r.add [item], n)
  | '{', _ => some (r.openChoice, 0)
  | ',', _ => some (r.nextBranch, 0)
  | '}', _ => r.closeChoice?.map (·, 0)
  | '\\', [] => none
  | '\\', c :: _ => some (r.literal c, 1)
  | c, _ => some (r.literal c, 0)

end Reading

-- The first `skip` characters have been taken already.
def readFrom? : List Char → Reading → (skip : Nat) → Option Glob
  | [], r, _ => if r.inChoice then none else some ⟨r.items.reverse⟩
  | c :: cs, r, skip + 1 => readFrom? cs { r with previous := some c } skip
  | c :: cs, r, 0 =>
    match r.step? c cs with
    | some (r, skip) => readFrom? cs { r with previous := some c } skip
    | none => none

def read? (pattern : String) : Option Glob :=
  readFrom? pattern.toList .start 0

end Stencil.Glob
