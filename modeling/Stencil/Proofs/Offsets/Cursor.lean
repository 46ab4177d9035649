import Stencil.Act
import Stencil.Proofs.Lexing.Extent
import Stencil.Proofs.Offsets.Boundary

-- Tokens that are read by byte offsets. Whatever is looked at is cut out of the whole text anew,
-- and a cut that is off ends the reading.
namespace Stencil

inductive Halt
  -- An offset is no boundary, or there is no end to the reading.
  | astray
  | error (e : ExprError)
deriving DecidableEq

-- A reader that knows of its place in a text nothing but the offset.
abbrev Cursor :=
  Act Nat Halt

namespace Cursor

open Token

section

variable (source : List Char)

def ofOption {α : Type} : Option α → Cursor α
  | some a => return a
  | none => Act.fail .astray

def throw {α : Type} (fault : ExprFault) (offset : Nat) : Cursor α :=
  Act.fail (.error (.ofFault fault offset))

def rest : Cursor (List Char) := do
  ofOption (dropBytes (← Act.get) source)

def slice (start : Nat) : Cursor (List Char) := do
  ofOption (slice? source start (← Act.get))

def peek? : Cursor (Option Char) := do
  return (← rest source).head?

-- Every offset that is reached is checked, also if nothing is read there.
def move (width : Nat) : Cursor Unit := do
  Act.modify (· + width)
  let _ ← rest source

def next? : Cursor (Option Char) := do
  match ← peek? source with
  | none => return none
  | some c =>
    move source c.utf8Size
    return some c

def optional (p : Char → Bool) (x : Cursor Unit) : Cursor Unit := do
  match ← peek? source with
  | none => return ()
  | some c =>
    if p c then
      move source c.utf8Size
      x
    else return ()

-- The number bounds the rounds.
def skipWhile (p : Char → Bool) : Nat → Cursor Unit
  | 0 => Act.fail .astray
  | fuel + 1 => optional source p (skipWhile p fuel)

def skip (p : Char → Bool) : Cursor Unit :=
  skipWhile source p (source.length + 1)

def digits : Cursor Unit :=
  skip source isDigit

def numberWalk : Cursor Unit := do
  digits source
  optional source (· == '.') (digits source)
  optional source (fun c => c == 'e' || c == 'E') do
    optional source (fun c => c == '+' || c == '-') (return ())
    digits source
  optional source isNameStart (skip source isNameChar)

-- What a walk goes over, cut out once its end is known.
def cut (walk : Cursor Unit) : Cursor (List Char) := do
  let start ← Act.get
  walk
  slice source start

def number : Cursor Kind := do
  let start ← Act.get
  let text ← cut source (numberWalk source)
  match Decimal.read? text with
  | some d => return .number d.toFloat
  | none => throw (.number (.ofList text)) start

def hexDigits (offset : Nat) : Nat → Cursor Unit
  | 0 => return ()
  | n + 1 => do
    match ← peek? source with
    | none => throw .hexDigit offset
    | some c =>
      if (hexDigit? c).isSome then
        move source c.utf8Size
        hexDigits offset n
      else throw .hexDigit offset

def hexEscape (offset n : Nat) : Cursor (List Char) := do
  match codePoint (← cut source (hexDigits source offset n)) with
  | .ok c => return [c]
  | .error fault => throw fault offset

-- How many digits follow the character after a backslash.
def hexWidth? : Char → Option Nat
  | 'x' => some 2
  | 'u' => some 4
  | _ => none

def escape (start : Nat) : Cursor (List Char) := do
  let offset ← Act.get
  match ← next? source with
  | none => throw .unclosedString start
  | some c =>
    match hexWidth? c with
    | some n => hexEscape source offset n
    | none => return escaped c

-- What the next characters of a string literal stand for, unless they are its closing mark.
def piece? (quote : Char) (start : Nat) : Cursor (Option (List Char)) := do
  match ← next? source with
  | none => throw .unclosedString start
  | some c =>
    if c = quote then return none
    else if c = '\\' then return some (← escape source start)
    else return some [c]

def stringBody (quote : Char) (start : Nat) : Nat → Cursor (List Char)
  | 0 => Act.fail .astray
  | fuel + 1 => do
    match ← piece? source quote start with
    | none => return []
    | some text => return text ++ (← stringBody quote start fuel)

def string (quote : Char) : Cursor Kind := do
  let start ← Act.get
  move source quote.utf8Size
  return .string (.ofList (← stringBody source quote start (source.length + 1)))

def name : Cursor Kind := do
  return .name (.ofList (← cut source (skip source isNameChar)))

def punct (c : Char) : Cursor Kind := do
  match Punct.read? (← rest source) with
  | none => throw (.character c) (← Act.get)
  | some p =>
    move source (byteWidth p.text.toList)
    return .punct p

-- The token that starts with `c`.
def token (c : Char) : Cursor Kind := do
  if startsNumber c (← rest source).tail then number source
  else if c == '"' || c == '\'' then string source c
  else if isNameStart c then name source
  else punct source c

def marksFrom : Nat → Cursor (List Mark)
  | 0 => Act.fail .astray
  | fuel + 1 => do
    skip source isBlank
    let offset ← Act.get
    match ← peek? source with
    | none => return [⟨none, offset⟩]
    | some c =>
      let kind ← token source c
      return ⟨some kind, offset⟩ :: (← marksFrom fuel)

def marks : Except Halt (List Mark) :=
  (marksFrom source (source.length + 1) 0).1

end

variable {α β : Type} {source before after mid cs : List Char} {c : Char}

-- From where `before` ends, a reader comes to where `after` ends, and gives `a`.
def Goes (x : Cursor α) (before : List Char) (a : α) (after : List Char) : Prop :=
  x (byteWidth before) = (.ok a, byteWidth after)

-- It ends with an error, wherever that is.
def Fails (x : Cursor α) (before : List Char) (e : ExprError) : Prop :=
  ∃ pos, x (byteWidth before) = (.error (.error e), pos)

section

variable {x : Cursor α} {f : α → Cursor β} {a : α} {b : β} {e : ExprError}

theorem Goes.pure : Goes (pure a : Cursor α) before a before :=
  rfl

theorem Goes.get : Goes Act.get before (byteWidth before) before :=
  rfl

theorem Goes.bind (hx : Goes x before a mid) (hf : Goes (f a) mid b after) :
    Goes (x >>= f) before b after :=
  (Act.bind_apply_ok hx).trans hf

theorem Goes.bind_fails (hx : Goes x before a mid) (hf : Fails (f a) mid e) :
    Fails (x >>= f) before e :=
  have ⟨pos, hf⟩ := hf
  ⟨pos, (Act.bind_apply_ok hx).trans hf⟩

theorem Fails.bind (hx : Fails x before e) : Fails (x >>= f) before e :=
  have ⟨pos, hx⟩ := hx
  ⟨pos, Act.bind_apply_error hx⟩

theorem Fails.throw {fault : ExprFault} {offset : Nat} :
    Fails (throw fault offset : Cursor α) before (.ofFault fault offset) :=
  ⟨_, rfl⟩

end

theorem goes_rest (h : source = before ++ cs) : Goes (rest source) before cs before := by
  refine Goes.get.bind ?_
  rw [h, dropBytes_append]
  exact Goes.pure

theorem goes_slice (h : source = before ++ (mid ++ cs)) :
    Goes (slice source (byteWidth before)) (before ++ mid) mid (before ++ mid) := by
  refine Goes.get.bind ?_
  rw [h, slice?_append]
  exact Goes.pure

theorem goes_cut {x : Cursor Unit} (h : source = before ++ (mid ++ cs))
    (hx : Goes x before () (before ++ mid)) : Goes (cut source x) before mid (before ++ mid) :=
  Goes.get.bind (hx.bind (goes_slice h))

theorem goes_peek (h : source = before ++ cs) : Goes (peek? source) before cs.head? before :=
  (goes_rest h).bind .pure

theorem goes_move (h : source = before ++ (mid ++ cs)) :
    Goes (move source (byteWidth mid)) before () (before ++ mid) := by
  have hm : Goes (Act.modify (· + byteWidth mid)) before () (before ++ mid) := by
    simp only [Goes, Act.modify, byteWidth_append]
  exact hm.bind ((goes_rest (h.trans (List.append_assoc ..).symm)).bind .pure)

theorem goes_move_char (h : source = before ++ c :: cs) :
    Goes (move source c.utf8Size) before () (before ++ [c]) := by
  have h : source = before ++ ([c] ++ cs) := h
  exact goes_move h

theorem goes_next (h : source = before ++ c :: cs) :
    Goes (next? source) before (some c) (before ++ [c]) :=
  (goes_peek h).bind ((goes_move_char h).bind .pure)

theorem goes_next_end (h : source = before) : Goes (next? source) before none before :=
  (goes_peek (h.trans (List.append_nil _).symm)).bind .pure

theorem goes_optional {p : Char → Bool} {x : Cursor Unit} (h : source = before ++ c :: cs)
    (hc : p c = true) (hx : Goes x (before ++ [c]) () after) :
    Goes (optional source p x) before () after := by
  refine (goes_peek h).bind ?_
  simp only [List.head?_cons, hc, if_true]
  exact (goes_move_char h).bind hx

theorem goes_optional_none {p : Char → Bool} {x : Cursor Unit} (h : source = before ++ cs)
    (hc : ∀ c ∈ cs.head?, p c = false) : Goes (optional source p x) before () before := by
  refine (goes_peek h).bind ?_
  cases hh : cs.head?
  case none => exact Goes.pure
  case some c =>
    simp only [hc c hh]
    exact Goes.pure

-- A reader that does nothing but walk over what a function takes from a text.
structure Walks (source : List Char) (x : Cursor Unit)
    (f : List Char → List Char × List Char) : Prop where
  append : ∀ cs, (f cs).1 ++ (f cs).2 = cs
  goes : ∀ {before cs}, source = before ++ cs → Goes x before () (before ++ (f cs).1)

namespace Walks

variable {x y : Cursor Unit} {f g : List Char → List Char × List Char} {p : Char → Bool}

theorem nothing : Walks source (return ()) fun cs => ([], cs) where
  append _ := rfl
  goes _ := by
    rw [List.append_nil]
    exact Goes.pure

theorem both (hx : Walks source x f) (hy : Walks source y g) :
    Walks source (do x; y) (both f g) where
  append cs := by rw [Token.both, List.append_assoc, hy.append, hx.append]
  goes {before cs} h := by
    have hs : source = before ++ (f cs).1 ++ (f cs).2 := by
      rw [List.append_assoc, hx.append, h]
    rw [Token.both, ←List.append_assoc]
    exact (hx.goes h).bind (hy.goes hs)

theorem optional (hx : Walks source x f) :
    Walks source (optional source p x) (option p f) where
  append cs := by
    cases cs
    case nil => rfl
    case cons c cs =>
      simp only [option]
      split
      case isTrue => simp [hx.append]
      case isFalse => rfl
  goes {before cs} h := by
    cases cs
    case nil =>
      rw [option, List.append_nil]
      exact goes_optional_none h (by simp)
    case cons c cs =>
      simp only [option]
      split
      case isTrue hc =>
        have hs : source = before ++ [c] ++ cs := by simp [h]
        rw [←List.singleton_append, ←List.append_assoc]
        exact goes_optional h hc (hx.goes hs)
      case isFalse hc =>
        rw [List.append_nil]
        exact goes_optional_none h (by simpa using hc)

theorem skipWhile {fuel : Nat} (h : source = before ++ cs) (hf : cs.length < fuel) :
    Goes (skipWhile source p fuel) before () (before ++ cs.takeWhile p) := by
  induction fuel generalizing before cs
  case zero => cases hf
  case succ fuel hi =>
    cases cs
    case nil =>
      rw [List.takeWhile_nil, List.append_nil]
      exact goes_optional_none h (by simp)
    case cons c cs =>
      rw [List.takeWhile_cons]
      split
      case isTrue hc =>
        have hs : source = before ++ [c] ++ cs := by simp [h]
        rw [←List.singleton_append, ←List.append_assoc]
        exact goes_optional h hc (hi hs (Nat.lt_of_succ_lt_succ hf))
      case isFalse hc =>
        rw [List.append_nil]
        exact goes_optional_none h (by simpa using hc)

theorem skip : Walks source (skip source p) (span p) where
  append _ := List.takeWhile_append_dropWhile
  goes h := by
    refine skipWhile h ?_
    rw [h, List.length_append]
    omega

theorem number : Walks source (numberWalk source) numberParts :=
  .both .skip <| .both (.optional .skip) <|
    .both (.optional (.both (.optional .nothing) .skip)) (.optional .skip)

end Walks

theorem Walks.goes_cut {x : Cursor Unit} {f : List Char → List Char × List Char}
    (hx : Walks source x f) (h : source = before ++ cs) :
    Goes (cut source x) before (f cs).1 (before ++ (f cs).1) := by
  have hs : source = before ++ ((f cs).1 ++ (f cs).2) := by rw [hx.append, h]
  exact Cursor.goes_cut hs (hx.goes h)

end Cursor
end Stencil
