import Stencil.Proofs.Descent.Index

-- Parsers beside a reading of the same tokens with a stack.
namespace Stencil

open Token (Kind Mark)
open Stencil.Expr (Open Reading)

namespace Expr.Reading

-- The fault that shows when the reading meets a token, or the end of the text.
def Refuses (r : Reading) (fault : ExprFault) : Option Kind → Prop
  | some k => r.step k = .error fault
  | none => r.finish = .error fault

end Expr.Reading

namespace Token.Mark

-- Marks that do not continue an operand.
structure NoSuffix (m : Mark) : Prop where
  dot : m.kind ≠ some (.punct .dot)
  bracket : m.kind ≠ some (.punct .openBracket)
  paren : m.kind ≠ some (.punct .openParen)

-- Nor are they operators that bind at least as tightly as `p`.
structure Stops (p : Nat) (m : Mark) : Prop extends m.NoSuffix where
  operator : ∀ op, m.binary? = some op → op.precedence < p

structure Ends (m : Mark) : Prop extends m.Stops 1 where
  question : m.kind ≠ some (.punct .question)

-- Marks that do not close the list on top of a stack.
def Opens (m : Mark) : List Open → Prop
  | .arguments _ _ :: _ => m.kind ≠ some (.punct .closeParen)
  | .items _ :: _ => m.kind ≠ some (.punct .closeBracket)
  | _ => True

theorem Ends.binary?_eq {m : Mark} (h : m.Ends) : m.binary? = none := by
  cases hb : m.binary?
  case none => rfl
  case some op =>
    have hp := h.operator op hb
    have := Reading.precedence_pos op
    omega

end Token.Mark

namespace Expr.Reading

variable {e e' : Expr} {stack stack' : List Open} {k : Kind} {m : Mark}

-- A token that does not continue the operand sees of it and the stack only what they settle to.
theorem stepOperator_congr (hm : m.kind = some k) (hs : m.NoSuffix)
    (hb : ∀ op, m.binary? = some op →
      settle op.precedence e stack = settle op.precedence e' stack')
    (hq : m.kind = some (.punct .question) → settle 0 e stack = settle 0 e' stack')
    (ha : settleAll e stack = settleAll e' stack') :
    stepOperator e stack k = stepOperator e' stack' k := by
  unfold stepOperator
  split
  case h_1 => exact absurd hm hs.dot
  case h_2 => exact absurd hm hs.bracket
  case h_3 => exact absurd hm hs.paren
  case h_4 => rw [hq hm]
  case h_5 p _ _ _ _ =>
    have hp : m.binary? = p.binary? := by rw [Mark.binary?, hm]
    cases ho : p.binary?
    case none => simp only [ha]
    case some op => simp only [hb op (hp.trans ho)]
  case h_6 => rw [ha]

theorem step_of_ends (hm : m.kind = some k) (he : m.Ends) :
    step ⟨.operator e, stack⟩ k = stepEnd (settleAll e stack).1 (settleAll e stack).2 k := by
  simp only [step]
  unfold stepOperator
  split
  case h_1 => exact absurd hm he.dot
  case h_2 => exact absurd hm he.bracket
  case h_3 => exact absurd hm he.paren
  case h_4 => exact absurd hm he.question
  case h_5 p _ _ _ _ =>
    have hp : p.binary? = none := by
      have hb := he.binary?_eq
      rwa [Mark.binary?, hm] at hb
    rw [hp]
  case h_6 => rfl

end Expr.Reading

namespace Descent

open Stencil.Expr.Reading

namespace Passage

-- The reading `r` is at the mark of an index, and comes to the result from there.
structure At (T : Passage) (i : Nat) (r : Reading) : Prop where
  le : i ≤ T.tokens.length
  run_eq : run T.stop (T.tokens.drop i) r = T.result

-- The parser gives something, or fails with the error that is the result. It does not go astray.
def Yields {α : Type} (T : Passage) (x : Cursor α) (i : Nat) (Q : α → Nat → Prop) : Prop :=
  (∃ a j, x i = (.ok a, j) ∧ Q a j) ∨
    ∃ e j, x i = (.error (.error e), j) ∧ T.result = .error e

variable {T : Passage} {i : Nat} {r r' : Reading} {k : Kind} {fault : ExprFault}

namespace At

theorem step (h : T.At i r) (hm : (T.mark i).kind = some k) (hs : r.step k = .ok r') :
    T.At (i + 1) r' := by
  refine ⟨lt_of_kind hm, ?_⟩
  rw [←h.run_eq, drop_of_kind hm]
  simp only [run, hs]

theorem result_eq (h : T.At i r) (hf : r.Refuses fault (T.mark i).kind) :
    T.result = .error (.ofFault fault (T.mark i).offset) := by
  cases hm : (T.mark i).kind <;> rw [hm] at hf
  case some k =>
    have hf : r.step k = .error fault := hf
    rw [←h.run_eq, drop_of_kind hm]
    simp only [run, hf]
  case none =>
    have hf : r.finish = .error fault := hf
    obtain ⟨hd, ho⟩ := drop_of_end hm
    rw [←h.run_eq, hd, ho]
    simp only [run, hf]

-- What has not been settled yet may as well be.
theorem settle {e e' : Expr} {stack stack' : List Open} (h : T.At i ⟨.operator e, stack⟩)
    (hs : (T.mark i).NoSuffix)
    (hb : ∀ op, (T.mark i).binary? = some op →
      Reading.settle op.precedence e stack = Reading.settle op.precedence e' stack')
    (hq : (T.mark i).kind = some (.punct .question) →
      Reading.settle 0 e stack = Reading.settle 0 e' stack')
    (ha : settleAll e stack = settleAll e' stack') : T.At i ⟨.operator e', stack'⟩ := by
  refine ⟨h.le, h.run_eq ▸ ?_⟩
  cases hm : (T.mark i).kind
  case some k =>
    rw [drop_of_kind hm]
    simp only [run, Reading.step, stepOperator_congr hm hs hb hq ha]
  case none =>
    rw [(drop_of_end hm).1]
    simp only [run, finish, ha]

variable {e test consequent lhs rhs : Expr} {stack : List Open}

theorem settle_unary {op : UnaryOp} (h : T.At i ⟨.operator e, .unary op :: stack⟩)
    (hs : (T.mark i).NoSuffix) : T.At i ⟨.operator (.unary op e), stack⟩ :=
  h.settle hs (fun _ _ => rfl) (fun _ => rfl) rfl

-- The operator behind the right operand, if there is one, does not bind tighter.
theorem settle_binary {op : BinaryOp} (h : T.At i ⟨.operator rhs, .binary lhs op :: stack⟩)
    (hs : (T.mark i).Stops (op.precedence + 1)) :
    T.At i ⟨.operator (.binary op lhs rhs), stack⟩ := by
  have hb (p : Nat) (hp : p ≤ op.precedence) : Reading.settle p rhs (.binary lhs op :: stack) =
      Reading.settle p (.binary op lhs rhs) stack := by
    rw [Reading.settle, if_pos hp]
  refine h.settle hs.toNoSuffix (fun op' ho => hb _ ?_) (fun _ => hb 0 (Nat.zero_le _)) rfl
  exact Nat.le_of_lt_succ (hs.operator op' ho)

theorem settle_alternate (h : T.At i ⟨.operator e, .alternate test consequent :: stack⟩)
    (he : (T.mark i).Ends) : T.At i ⟨.operator (.cond test consequent e), stack⟩ := by
  refine h.settle he.toNoSuffix (fun op hb => ?_) (fun hq => absurd hq he.question) rfl
  cases he.binary?_eq.symm.trans hb

end At

namespace Yields

variable {α β : Type} {x : Cursor α} {f : α → Cursor β} {P : α → Nat → Prop} {Q : β → Nat → Prop}

theorem pure {a : β} (h : Q a i) : T.Yields (pure a) i Q :=
  .inl ⟨a, i, rfl, h⟩

theorem throw {offset : Nat} (h : T.result = .error (.ofFault fault offset)) :
    T.Yields (Cursor.throw fault offset) i Q :=
  .inr ⟨_, i, rfl, h⟩

theorem bind (hx : T.Yields x i P) (hf : ∀ a j, P a j → T.Yields (f a) j Q) :
    T.Yields (x >>= f) i Q := by
  obtain ⟨a, j, hx, hp⟩ | ⟨e, j, hx, he⟩ := hx
  · unfold Yields
    rw [Act.bind_apply_ok hx]
    exact hf a j hp
  · exact .inr ⟨e, j, Act.bind_apply_error hx, he⟩

theorem mono {P : β → Nat → Prop} {x : Cursor β} (hx : T.Yields x i P)
    (h : ∀ a j, P a j → Q a j) : T.Yields x i Q :=
  hx.imp_left fun ⟨a, j, hx, hp⟩ => ⟨a, j, hx, h a j hp⟩

variable {look : Nat → Option Mark} {p : Punct}

theorem peek (hl : T.Knows look) (hi : i ≤ T.tokens.length) {f : Mark → Cursor β}
    (h : T.Yields (f (T.mark i)) i Q) : T.Yields (peek look >>= f) i Q := by
  unfold Yields
  rwa [Act.bind_apply_ok (peek_eq hl hi)]

theorem advance (hl : T.Knows look) (hi : i ≤ T.tokens.length) {f : Mark → Cursor β}
    (h : T.Yields (f (T.mark i)) (T.next i) Q) :
    T.Yields (advance look >>= f) i Q := by
  unfold Yields
  rwa [Act.bind_apply_ok (advance_eq hl hi)]

theorem advance_of_kind (hl : T.Knows look) (hk : (T.mark i).kind = some k) {f : Mark → Cursor β}
    (h : T.Yields (f (T.mark i)) (i + 1) Q) : T.Yields (Descent.advance look >>= f) i Q := by
  refine advance hl (Nat.le_of_lt (lt_of_kind hk)) ?_
  rwa [next_of_kind hk]

theorem eat (hl : T.Knows look) (hi : i ≤ T.tokens.length) {f : Bool → Cursor β}
    (ht : (T.mark i).kind = some (.punct p) → T.Yields (f true) (i + 1) Q)
    (hf : (T.mark i).kind ≠ some (.punct p) → T.Yields (f false) i Q) :
    T.Yields (eat look p >>= f) i Q := by
  rw [Descent.eat, bind_assoc]
  refine peek hl hi ?_
  split
  case isTrue hk =>
    rw [bind_assoc]
    exact advance_of_kind hl hk (ht hk)
  case isFalse hk => exact hf hk

theorem expect (hl : T.Knows look) (hi : i ≤ T.tokens.length) {f : Unit → Cursor β}
    (ht : (T.mark i).kind = some (.punct p) → T.Yields (f ()) (i + 1) Q)
    (hf : (T.mark i).kind ≠ some (.punct p) →
      T.result = .error (.ofFault (.found (.punct p) (T.mark i).kind) (T.mark i).offset)) :
    T.Yields (expect look p >>= f) i Q := by
  rw [Descent.expect, bind_assoc]
  refine advance hl hi ?_
  split
  case isTrue hk =>
    rw [next_of_kind hk]
    exact ht hk
  case isFalse hk =>
    exact bind (P := fun _ _ => False) (throw (hf hk)) fun _ _ h => h.elim

end Yields
end Passage
end Descent
end Stencil
