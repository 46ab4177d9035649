import Stencil.Proofs.Grammar.Basic

namespace Stencil.Expr.Reading

open Token (Kind)

-- Reading several tokens, one after the other.
inductive Steps : Reading → List Kind → Reading → Prop
  | refl {r} : Steps r [] r
  | step {r₁ r₂ r₃ k ks} : r₁.step k = .ok r₂ → Steps r₂ ks r₃ → Steps r₁ (k :: ks) r₃

namespace Steps

variable {r₁ r₂ r₃ : Reading} {k : Kind} {ks : List Kind}

theorem single (h : r₁.step k = .ok r₂) : Steps r₁ [k] r₂ :=
  .step h .refl

theorem trans {r₁ r₂ r₃ ks₁ ks₂} : Steps r₁ ks₁ r₂ → Steps r₂ ks₂ r₃ → Steps r₁ (ks₁ ++ ks₂) r₃
  | .refl, h       => h
  | .step h h₁, h₂ => .step h (h₁.trans h₂)

theorem snoc (h : Steps r₁ ks r₂) (hs : r₂.step k = .ok r₃) : Steps r₁ (ks ++ [k]) r₃ :=
  h.trans (single hs)

end Steps

variable {stop : Nat} {ts : List Token} {r : Reading} {e : Expr}

theorem run_eq_ok_iff_steps :
    run stop ts r = .ok e ↔ ∃ r', Steps r (ts.map Token.kind) r' ∧ r'.finish = .ok e := by
  induction ts generalizing r
  case nil =>
    constructor
    case mp =>
      intro h
      simp only [run] at h
      cases hf : r.finish <;> simp [hf] at h
      exact ⟨r, .refl, h ▸ hf⟩
    case mpr =>
      rintro ⟨_, hs, hf⟩
      cases hs
      simp [run, hf]
  case cons t ts hi =>
    constructor
    case mp =>
      intro h
      simp only [run] at h
      cases ht : r.step t.kind <;> simp [ht] at h
      have ⟨r', hs, hf⟩ := hi.mp h
      exact ⟨r', .step ht hs, hf⟩
    case mpr =>
      rintro ⟨r', hs, hf⟩
      cases hs
      case step ht hs => simpa [run, ht] using hi.mpr ⟨r', hs, hf⟩

-- The top of the stack is not settled by an operator of precedence `p`.
def Holds (p : Nat) : List Open → Prop
  | .unary _ :: _ => False
  | .binary _ op :: _ => op.precedence < p
  | _ => True

namespace Holds

variable {p q : Nat} {stack : List Open}

theorem mono (h : Holds p stack) (hq : p ≤ q) : Holds q stack := by
  cases stack
  case nil => trivial
  case cons o _ =>
    cases o
    case unary => exact h
    case binary => exact Nat.lt_of_lt_of_le h hq
    all_goals trivial

theorem settle_eq (h : Holds p stack) (e : Expr) : settle p e stack = (e, stack) := by
  cases stack
  case nil => rfl
  case cons o _ =>
    cases o
    case unary => exact h.elim
    case binary op => simp [settle, Nat.not_le.mpr h]
    all_goals rfl

end Holds

theorem precedence_pos (op : BinaryOp) : 0 < op.precedence := by
  cases op <;> decide

theorem precedence_lt (op : BinaryOp) : op.precedence < 7 := by
  cases op <;> decide

end Stencil.Expr.Reading
