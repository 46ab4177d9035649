import Stencil.Expr.Error
import Stencil.Text.Blank
import Stencil.Text.Hex
import Stencil.Text.Width

namespace Stencil.Token

def fractionPart : List Char → List Char × List Char
  | '.' :: cs => ('.' :: cs.takeWhile isDigit, cs.dropWhile isDigit)
  | cs => ([], cs)

def exponentPart : List Char → List Char × List Char
  | [] => ([], [])
  | c :: cs =>
    if c == 'e' || c == 'E' then
      match cs with
      | '+' :: ds => (c :: '+' :: ds.takeWhile isDigit, ds.dropWhile isDigit)
      | '-' :: ds => (c :: '-' :: ds.takeWhile isDigit, ds.dropWhile isDigit)
      | ds => (c :: ds.takeWhile isDigit, ds.dropWhile isDigit)
    else ([], c :: cs)

def wordPart : List Char → List Char
  | [] => []
  | c :: cs => if isNameStart c then c :: cs.takeWhile isNameChar else []

-- How far a number reaches. A word that follows without a gap belongs to it, and makes it invalid.
def numberExtent (cs : List Char) : List Char :=
  let whole := cs.takeWhile isDigit
  let (fraction, cs) := fractionPart (cs.dropWhile isDigit)
  let (exponent, cs) := exponentPart cs
  whole ++ fraction ++ exponent ++ wordPart cs

-- The character that a backslash and hexadecimal digits stand for.
def codePoint (digits : List Char) : Except ExprFault Char :=
  match hexValue? digits with
  | none => .error .hexDigit
  | some n => if n.isValidChar then .ok (.ofNat n) else .error .codePoint

-- What a backslash and one character stand for. A line break is dropped.
def escaped : Char → List Char
  | 'n' => ['\n']
  | 't' => ['\t']
  | 'r' => ['\r']
  | 'b' => ['\x08']
  | 'f' => ['\x0c']
  | 'v' => ['\x0b']
  | '0' => ['\x00']
  | '\n' => []
  | c => [c]

-- Reads the rest of a string literal that opened with `quote` at the offset `start`. Gives its text
-- and the number of characters up to its closing mark, that mark included.
def stringRest (quote : Char) (start : Nat) :
    List Char → (offset : Nat) → Except ExprError (List Char × Nat)
  | [], _ => .error (.ofFault .unclosedString start)
  | '\\' :: [], _ => .error (.ofFault .unclosedString start)
  | '\\' :: 'x' :: a :: b :: cs, offset =>
    match codePoint [a, b] with
    | .error fault => .error (.ofFault fault (offset + 1))
    | .ok c => extend [c] 4 (stringRest quote start cs (offset + 4))
  | '\\' :: 'x' :: _, offset => .error (.ofFault .hexDigit (offset + 1))
  | '\\' :: 'u' :: a :: b :: c :: d :: cs, offset =>
    match codePoint [a, b, c, d] with
    | .error fault => .error (.ofFault fault (offset + 1))
    | .ok c => extend [c] 6 (stringRest quote start cs (offset + 6))
  | '\\' :: 'u' :: _, offset => .error (.ofFault .hexDigit (offset + 1))
  | '\\' :: c :: cs, offset =>
    extend (escaped c) 2 (stringRest quote start cs (offset + 1 + c.utf8Size))
  | c :: cs, offset =>
    if c == quote then .ok ([], 1)
    else extend [c] 1 (stringRest quote start cs (offset + c.utf8Size))
where
  extend (text : List Char) (n : Nat) :
      Except ExprError (List Char × Nat) → Except ExprError (List Char × Nat)
    | .error e => .error e
    | .ok (rest, m) => .ok (text ++ rest, n + m)

def startsNumber (c : Char) (cs : List Char) : Bool :=
  isDigit c || (c == '.' && cs.head?.any isDigit)

-- The token that starts with `c`, and how many of the characters `cs` after it belong to it.
def read (offset : Nat) (c : Char) (cs : List Char) : Except ExprError (Kind × Nat) :=
  if startsNumber c cs then
    let text := numberExtent (c :: cs)
    match Decimal.read? text with
    | some d => .ok (.number d.toFloat, text.length - 1)
    | none => .error (.ofFault (.number (.ofList text)) offset)
  else if c == '"' || c == '\'' then
    match stringRest c offset cs (offset + 1) with
    | .ok (text, n) => .ok (.string (.ofList text), n)
    | .error e => .error e
  else if isNameStart c then
    let rest := cs.takeWhile isNameChar
    .ok (.name (.ofList (c :: rest)), rest.length)
  else
    match Punct.read? (c :: cs) with
    | some p => .ok (.punct p, p.text.length - 1)
    | none => .error (.ofFault (.character c) offset)

-- Reads tokens from a text whose first `skip` characters belong to a token that has been read.
def scanFrom : List Char → (skip offset : Nat) → Except ExprError (List Token)
  | [], _, _ => .ok []
  | c :: cs, skip + 1, offset => scanFrom cs skip (offset + c.utf8Size)
  | c :: cs, 0, offset =>
    if isBlank c then scanFrom cs 0 (offset + c.utf8Size)
    else
      match read offset c cs with
      | .error e => .error e
      | .ok (kind, further) =>
        match scanFrom cs further (offset + c.utf8Size) with
        | .error e => .error e
        | .ok tokens => .ok (⟨kind, offset⟩ :: tokens)

def scan (cs : List Char) : Except ExprError (List Token) :=
  scanFrom cs 0 0

-- A token in its place in a text, or the end of the text, which has no kind.
structure Mark where
  kind : Option Kind
  offset : Nat
deriving DecidableEq

def marks (cs : List Char) : Except ExprError (List Mark) :=
  match scan cs with
  | .error e => .error e
  | .ok tokens => .ok (tokens.map (fun t => ⟨some t.kind, t.offset⟩) ++ [⟨none, byteWidth cs⟩])

end Stencil.Token
