import Stencil.Json.Numeral
import Stencil.Text.Hex

namespace Stencil.Json

inductive Sign
  | openArray | closeArray | openObject | closeObject | colon | comma
  | value (scalar : Json)
  | string (s : String)

-- The character that a backslash and `c` stand for.
def unescape? : Char → Option Char
  | '"' => some '"'
  | '\\' => some '\\'
  | '/' => some '/'
  | 'b' => some '\x08'
  | 'f' => some '\x0c'
  | 'n' => some '\n'
  | 'r' => some '\r'
  | 't' => some '\t'
  | _ => none

-- The character that two surrogates stand for.
def surrogates? (high low : Nat) : Option Char :=
  if 0xd800 ≤ high ∧ high < 0xdc00 ∧ 0xdc00 ≤ low ∧ low < 0xe000 then
    some (.ofNat (0x10000 + (high - 0xd800) * 0x400 + (low - 0xdc00)))
  else none

-- Reads the rest of a string. Gives its text and the number of characters up to its closing mark,
-- that mark included.
def stringRest? : List Char → Option (List Char × Nat)
  | [] => none
  | '"' :: _ => some ([], 1)
  | '\\' :: 'u' :: a :: b :: c :: d :: cs =>
    match hexValue? [a, b, c, d] with
    | none => none
    | some n =>
      if n.isValidChar then extend (.ofNat n) 6 (stringRest? cs)
      else
        match cs with
        | '\\' :: 'u' :: e :: f :: g :: h :: cs =>
          match (hexValue? [e, f, g, h]).bind (surrogates? n) with
          | some c => extend c 12 (stringRest? cs)
          | none => none
        | _ => none
  | '\\' :: c :: cs =>
    match unescape? c with
    | some c => extend c 2 (stringRest? cs)
    | none => none
  | c :: cs => if c.toNat < 0x20 || c == '\\' then none else extend c 1 (stringRest? cs)
where
  extend (c : Char) (n : Nat) : Option (List Char × Nat) → Option (List Char × Nat)
    | some (text, m) => some (c :: text, n + m)
    | none => none

-- The sign that starts with `c`, and how many of the characters after it belong to it.
def readSign? (c : Char) (cs : List Char) : Option (Sign × Nat) :=
  match c with
  | '[' => some (.openArray, 0)
  | ']' => some (.closeArray, 0)
  | '{' => some (.openObject, 0)
  | '}' => some (.closeObject, 0)
  | ':' => some (.colon, 0)
  | ',' => some (.comma, 0)
  | '"' => (stringRest? cs).map fun (s, n) => (.string (.ofList s), n)
  | 'n' => if "ull".toList.isPrefixOf cs then some (.value .null, 3) else none
  | 't' => if "rue".toList.isPrefixOf cs then some (.value (.bool true), 3) else none
  | 'f' => if "alse".toList.isPrefixOf cs then some (.value (.bool false), 4) else none
  | c => (readNumeral? (c :: cs)).map fun (n, rest) => (.value (.number n), cs.length - rest.length)

def isSpace (c : Char) : Bool :=
  c == ' ' || c == '\n' || c == '\t' || c == '\r'

def scan? : List Char → (skip : Nat) → Option (List Sign)
  | [], _ => some []
  | _ :: cs, skip + 1 => scan? cs skip
  | c :: cs, 0 =>
    if isSpace c then scan? cs 0
    else
      match readSign? c cs with
      | none => none
      | some (sign, further) => (scan? cs further).map (sign :: ·)

-- An array or object that is still open, with its parts so far, the last one first.
inductive Open
  | array (done : List Json)
  | object (done : List (String × Json))
  | member (done : List (String × Json)) (name : String)

inductive Await
  | value
  | valueOrClose
  | name
  | nameOrClose
  | colon
  | commaOrClose
  | finish (document : Json)

structure Reading where
  await : Await
  stack : List Open

namespace Reading

-- Hands a complete value to the innermost open array or object.
def supply (x : Json) : List Open → Option Reading
  | [] => some ⟨.finish x, []⟩
  | .array done :: stack => some ⟨.commaOrClose, .array (x :: done) :: stack⟩
  | .member done name :: stack => some ⟨.commaOrClose, .object ((name, x) :: done) :: stack⟩
  | .object _ :: _ => none

def open? (limit : Nat) (o : Open) (await : Await) (stack : List Open) : Option Reading :=
  if stack.length < limit then some ⟨await, o :: stack⟩ else none

def stepValue? (limit : Nat) (stack : List Open) : Sign → Option Reading
  | .value x => supply x stack
  | .string s => supply (.string s) stack
  | .openArray => open? limit (.array []) .valueOrClose stack
  | .openObject => open? limit (.object []) .nameOrClose stack
  | _ => none

def close? : List Open → Sign → Option Reading
  | .array done :: stack, .closeArray => supply (.array done.reverse) stack
  | .object done :: stack, .closeObject => supply (.object done.reverse) stack
  | _, _ => none

def stepName? : List Open → Sign → Option Reading
  | .object done :: stack, .string name => some ⟨.colon, .member done name :: stack⟩
  | _, _ => none

def step? (limit : Nat) (r : Reading) (sign : Sign) : Option Reading :=
  match r.await with
  | .value => stepValue? limit r.stack sign
  | .valueOrClose => (close? r.stack sign).or (stepValue? limit r.stack sign)
  | .name => stepName? r.stack sign
  | .nameOrClose => (close? r.stack sign).or (stepName? r.stack sign)
  | .colon =>
    match sign with
    | .colon => some ⟨.value, r.stack⟩
    | _ => none
  | .commaOrClose =>
    match sign, r.stack with
    | .comma, .array _ :: _ => some ⟨.value, r.stack⟩
    | .comma, .object _ :: _ => some ⟨.name, r.stack⟩
    | sign, stack => close? stack sign
  | .finish _ => none

def run? (limit : Nat) : List Sign → Reading → Option Json
  | [], r =>
    match r.await with
    | .finish x => some x
    | _ => none
  | sign :: signs, r => (r.step? limit sign).bind (run? limit signs)

end Reading

-- Reads a document whose arrays and objects nest at most `limit` deep.
def read? (limit : Nat) (text : String) : Option Json :=
  (scan? text.toList 0).bind fun signs => Reading.run? limit signs ⟨.value, []⟩

-- How deep the documents of files may nest.
def fileDepth : Nat :=
  127

end Stencil.Json
