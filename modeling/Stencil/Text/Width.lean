namespace Stencil

-- Positions in a source text are byte offsets of its UTF-8 form.
def byteWidth : List Char → Nat
  | [] => 0
  | c :: cs => c.utf8Size + byteWidth cs

-- What remains of a text from a byte offset on, when the offset is that of a character or of the
-- end.
def dropBytes : Nat → List Char → Option (List Char)
  | 0, cs => some cs
  | _ + 1, [] => none
  | n + 1, c :: cs => if c.utf8Size ≤ n + 1 then dropBytes (n + 1 - c.utf8Size) cs else none

-- The length of a string value counts UTF-16 units, two for a character outside the basic plane.
def unitWidth : List Char → Nat
  | [] => 0
  | c :: cs => (if c.toNat < 0x10000 then 1 else 2) + unitWidth cs

@[simp]
theorem byteWidth_append (as bs : List Char) :
    byteWidth (as ++ bs) = byteWidth as + byteWidth bs := by
  induction as with
  | nil => simp [byteWidth]
  | cons a as ih => simp [byteWidth, ih, Nat.add_assoc]

end Stencil
