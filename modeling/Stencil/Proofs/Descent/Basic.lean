import Stencil.Proofs.Grammar.Basic
import Stencil.Proofs.Offsets.Cursor

-- Expressions that are parsed by recursive descent. A parser knows of its place among the marks of
-- a text nothing but the index of the next one, and goes astray if there is no mark there.
namespace Stencil

namespace Token.Mark

-- The operator that a mark stands for behind an operand, and before one.
def binary? (m : Mark) : Option BinaryOp :=
  match m.kind with
  | some (.punct p) => p.binary?
  | _ => none

def unary? (m : Mark) : Option UnaryOp :=
  match m.kind with
  | some (.punct p) => p.unary?
  | _ => none

variable {m : Mark}

theorem kind_of_binary? {op : BinaryOp} (h : m.binary? = some op) :
    ∃ p, m.kind = some (.punct p) ∧ p.binary? = some op := by
  unfold binary? at h
  split at h
  case h_1 p hm => exact ⟨p, hm, h⟩
  case h_2 => cases h

theorem kind_of_unary? {op : UnaryOp} (h : m.unary? = some op) :
    ∃ p, m.kind = some (.punct p) ∧ p.unary? = some op := by
  unfold unary? at h
  split at h
  case h_1 p hm => exact ⟨p, hm, h⟩
  case h_2 => cases h

end Token.Mark

namespace Descent

open Token (Mark)
open Cursor (ofOption throw)

-- The mark at an index, or else the last one.
def clamped (ms : List Mark) (i : Nat) : Option Mark :=
  ms[min i (ms.length - 1)]?

theorem clamped_eq {ms : List Mark} {i : Nat} (h : i < ms.length) : clamped ms i = ms[i]? := by
  rw [clamped, Nat.min_eq_left (Nat.le_sub_one_of_lt h)]

section

variable (look : Nat → Option Mark)

def peek : Cursor Mark := do
  ofOption (look (← Act.get))

-- The index stays at the end of the text once it is there.
def advance : Cursor Mark := do
  let m ← peek look
  Act.modify fun i => if m.kind.isSome then i + 1 else i
  return m

def eat (p : Punct) : Cursor Bool := do
  let m ← peek look
  if m.kind = some (.punct p) then
    let _ ← advance look
    return true
  else return false

-- Goes on also if something else is found.
def expect (p : Punct) : Cursor Unit := do
  let m ← advance look
  if m.kind = some (.punct p) then return ()
  else throw (.found (.punct p) m.kind) m.offset

-- The numbers bound the calls, each of which has one less to give to those that it makes.
mutual

def conditional : Nat → Cursor Expr
  | 0 => Act.fail .astray
  | fuel + 1 => do
    let test ← binary 1 fuel
    if ← eat look .question then
      let consequent ← conditional fuel
      expect look .colon
      let alternate ← conditional fuel
      return .cond test consequent alternate
    else return test

-- Operators that bind at least as tightly as `p`, and their operands.
def binary (p : Nat) : Nat → Cursor Expr
  | 0 => Act.fail .astray
  | fuel + 1 => do
    let lhs ← unary fuel
    climb p lhs fuel

def climb (p : Nat) (lhs : Expr) : Nat → Cursor Expr
  | 0 => Act.fail .astray
  | fuel + 1 => do
    let m ← peek look
    match m.binary? with
    | none => return lhs
    | some op =>
      if op.precedence < p then return lhs
      else
        let _ ← advance look
        let rhs ← binary (op.precedence + 1) fuel
        climb p (.binary op lhs rhs) fuel

def unary : Nat → Cursor Expr
  | 0 => Act.fail .astray
  | fuel + 1 => do
    let m ← peek look
    match m.unary? with
    | none => suffixed fuel
    | some op =>
      let _ ← advance look
      let operand ← unary fuel
      return .unary op operand

def suffixed : Nat → Cursor Expr
  | 0 => Act.fail .astray
  | fuel + 1 => do
    let e ← primary fuel
    suffixes e fuel

def suffixes (e : Expr) : Nat → Cursor Expr
  | 0 => Act.fail .astray
  | fuel + 1 => do
    let m ← peek look
    match m.kind with
    | some (.punct .dot) =>
      let _ ← advance look
      let m ← advance look
      match m.kind with
      | some (.name x) => suffixes (.member e x) fuel
      | kind => throw (.found .propertyName kind) m.offset
    | some (.punct .openBracket) =>
      let _ ← advance look
      let i ← conditional fuel
      expect look .closeBracket
      suffixes (.index e i) fuel
    | some (.punct .openParen) =>
      let _ ← advance look
      let arguments ← items .closeParen [] fuel
      suffixes (.call e arguments) fuel
    | _ => return e

def primary : Nat → Cursor Expr
  | 0 => Act.fail .astray
  | fuel + 1 => do
    let m ← advance look
    match m.kind with
    | some (.number x) => return .literal (.number x)
    | some (.string s) => return .literal (.string s)
    | some (.name x) => return .ofName x
    | some (.punct .openParen) =>
      let e ← conditional fuel
      expect look .closeParen
      return e
    | some (.punct .openBracket) => return .array (← items .closeBracket [] fuel)
    | some (.punct .openBrace) => return .object (← entries [] fuel)
    | none => throw .ended m.offset
    | kind => throw (.found .expression kind) m.offset

-- A comma may follow the last item.
def items (close : Punct) (done : List Expr) : Nat → Cursor (List Expr)
  | 0 => Act.fail .astray
  | fuel + 1 => do
    if ← eat look close then return done
    else
      let e ← conditional fuel
      if ← eat look .comma then items close (done ++ [e]) fuel
      else
        expect look close
        return done ++ [e]

def entries (done : List (String × Expr)) : Nat → Cursor (List (String × Expr))
  | 0 => Act.fail .astray
  | fuel + 1 => do
    if ← eat look .closeBrace then return done
    else
      let m ← advance look
      match m.kind.bind Token.Kind.key? with
      | none => throw (.found .propertyKey m.kind) m.offset
      | some key =>
        let e ← value key fuel
        if ← eat look .comma then entries (done ++ [(key, e)]) fuel
        else
          expect look .closeBrace
          return done ++ [(key, e)]

-- A key without a value stands for the name of the same text.
def value (key : String) : Nat → Cursor Expr
  | 0 => Act.fail .astray
  | fuel + 1 => do
    if ← eat look .colon then conditional fuel else return .name key

end

-- An expression with nothing behind it.
def expression (fuel : Nat) : Cursor Expr := do
  let e ← conditional look fuel
  let m ← peek look
  match m.kind with
  | none => return e
  | some kind => throw (.trailing kind) m.offset

end
end Descent
end Stencil
