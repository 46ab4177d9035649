import Stencil.Proofs.Grammar.Steps

namespace Stencil.Expr.Reading

open Token (Kind)

variable {stack : List Open} {p : Nat} {ks : List Kind} {e : Expr} {r : Reading}

-- Where an operand is wanted, the phrase `ks` leads to an operand that becomes `e` once everything
-- is settled that an operand can end.
def Closes (stack : List Open) (ks : List Kind) (e : Expr) : Prop :=
  ∃ e' stack', Steps ⟨.operand, stack⟩ ks ⟨.operator e', stack'⟩ ∧
    settleAll e' stack' = settleAll e stack

-- Also an operator that binds no tighter than `p` finds `e` as its left operand.
def Reads (p : Nat) (stack : List Open) (ks : List Kind) (e : Expr) : Prop :=
  ∃ e' stack', Steps ⟨.operand, stack⟩ ks ⟨.operator e', stack'⟩ ∧
    settleAll e' stack' = settleAll e stack ∧ ∀ q ≤ p, settle q e' stack' = settle q e stack

theorem Reads.closes (h : Reads p stack ks e) : Closes stack ks e :=
  have ⟨e', stack', hs, ha, _⟩ := h
  ⟨e', stack', hs, ha⟩

theorem Reads.of_steps (h : Steps ⟨.operand, stack⟩ ks ⟨.operator e, stack⟩) :
    Reads p stack ks e :=
  ⟨e, stack, h, rfl, fun _ _ => rfl⟩

theorem step_binary {q : Punct} {op : BinaryOp} (hq : q.binary? = some op) :
    step ⟨.operator e, stack⟩ (.punct q) =
      .ok ⟨.operand, .binary (settle op.precedence e stack).1 op ::
        (settle op.precedence e stack).2⟩ := by
  cases q <;> simp [Punct.binary?] at hq <;> subst hq <;> rfl

theorem step_unary {q : Punct} {op : UnaryOp} (hq : q.unary? = some op) :
    step ⟨.operand, stack⟩ (.punct q) = .ok ⟨.operand, .unary op :: stack⟩ := by
  cases q <;> simp [Punct.unary?] at hq <;> subst hq <;> rfl

theorem step_key {k : Kind} {key : String} {done : List (String × Expr)} (hk : k.key? = some key) :
    step ⟨.key done, stack⟩ k = .ok ⟨.afterKey done key, stack⟩ := by
  cases k <;> simp [Kind.key?] at hk <;> subst hk <;> rfl

-- The token `q` ends the operand of the open construct `o`.
theorem Closes.steps (o : Open) (stack : List Open) (q : Punct) (h : Closes (o :: stack) ks e)
    (hr : stepEnd e (o :: stack) (.punct q) = .ok r)
    (ho : settleAll e (o :: stack) = (e, o :: stack) := by rfl)
    (hq : ∀ e stack, step ⟨.operator e, stack⟩ (.punct q) =
      stepEnd (settleAll e stack).1 (settleAll e stack).2 (.punct q) := by intros; rfl) :
    Steps ⟨.operand, o :: stack⟩ (ks ++ [.punct q]) r := by
  have ⟨_, _, h, ha⟩ := h
  refine h.snoc ?_
  rw [hq, ha, ho, hr]

end Stencil.Expr.Reading

namespace Stencil.Grammar

open Token (Kind)
open Stencil.Expr Reading

-- The induction is on the derivation. In each case the stack below the phrase is arbitrary, except
-- that its top is not settled by what the phrase holds.
mutual

theorem Conditional.closes {ks e} (stack : List Open) (hs : Holds 0 stack) :
    Conditional ks e → Closes stack ks e
  | .plain h => (h.reads stack (hs.mono (Nat.zero_le _))).closes
  | @Conditional.cond _ _ _ test consequent _ h₁ h₂ h₃ => by
    have ⟨_, _, h₁, _, ht⟩ := h₁.reads stack (hs.mono (Nat.zero_le _))
    have ht := (ht 0 (Nat.zero_le _)).trans (hs.settle_eq _)
    have hq := h₁.snoc (k := .punct .question) (by simp only [step, stepOperator, ht]; rfl)
    have hc := hq.trans (Closes.steps (.consequent test) stack .colon (h₂.closes _ trivial) rfl)
    have ⟨e', stack', h₃, ha⟩ := h₃.closes (.alternate test consequent :: stack) trivial
    exact ⟨e', stack', by simpa using hc.trans h₃, ha⟩

theorem Binary.reads {p ks e} (stack : List Open) (hs : Holds p stack) :
    Binary p ks e → Reads p stack ks e
  | .unary h => h.reads 7 stack
  | .tighter _ h => by
    have ⟨e', stack', h, ha, ht⟩ := h.reads stack (hs.mono (Nat.le_succ _))
    exact ⟨e', stack', h, ha, fun q hq => ht q (Nat.le_succ_of_le hq)⟩
  | @Binary.chain _ _ op _ _ lhs _ hq hp h₁ h₂ => by
    have ⟨_, _, h₁, _, ht⟩ := h₁.reads stack hs
    have ⟨e', stack', h₂, ha, ht'⟩ :=
      h₂.reads (.binary lhs op :: stack) (hp ▸ Nat.lt_succ_self _)
    have ht := (ht p (Nat.le_refl p)).trans (hs.settle_eq lhs)
    have h₁ := h₁.snoc (step_binary hq)
    rw [hp, ht] at h₁
    refine ⟨e', stack', by simpa using h₁.trans h₂, ha, fun q hq => ?_⟩
    rw [ht' q (Nat.le_succ_of_le hq)]
    simp [settle, hp, hq]

theorem Unary.reads {ks e} (p : Nat) (stack : List Open) : Unary ks e → Reads p stack ks e
  | .plain h => .of_steps h.steps
  | @Unary.op _ op _ _ hq h => by
    have ⟨e', stack', h, ha, ht⟩ := h.reads p (.unary op :: stack)
    exact ⟨e', stack', .step (step_unary hq) h, ha, ht⟩

theorem Postfix.steps {ks e} {stack : List Open} :
    Postfix ks e → Steps ⟨.operand, stack⟩ ks ⟨.operator e, stack⟩
  | .plain h => h.steps
  | .member h => h.steps.trans (.step rfl (.single rfl))
  | .index h₁ h₂ =>
    have h := Closes.steps (.index _) stack .closeBracket (h₂.closes _ trivial) rfl
    h₁.steps.trans (.step rfl h)
  | .call h₁ h₂ => h₁.steps.trans (.step rfl h₂.arguments)

theorem Primary.steps {ks e} {stack : List Open} :
    Primary ks e → Steps ⟨.operand, stack⟩ ks ⟨.operator e, stack⟩
  | .number | .string | .name => .single rfl
  | .group h => .step rfl (Closes.steps .group stack .closeParen (h.closes _ trivial) rfl)
  | .array h => .step rfl h.items
  | .object h => .step rfl h.entries

theorem Items.arguments {ks es} {stack : List Open} {callee : Expr} {done : List Expr} :
    Items ks es → Steps ⟨.operand, .arguments callee done :: stack⟩ (ks ++ [.punct .closeParen])
      ⟨.operator (.call callee (done ++ es)), stack⟩
  | .nil => by simpa using .single rfl
  | .last h => Closes.steps (.arguments _ _) stack .closeParen (h.closes _ trivial) rfl
  | .cons h₁ h₂ => by
    have h := Closes.steps (.arguments callee done) stack .comma (h₁.closes _ trivial) rfl
    simpa using h.trans h₂.arguments

theorem Items.items {ks es} {stack : List Open} {done : List Expr} :
    Items ks es → Steps ⟨.operand, .items done :: stack⟩ (ks ++ [.punct .closeBracket])
      ⟨.operator (.array (done ++ es)), stack⟩
  | .nil => by simpa using .single rfl
  | .last h => Closes.steps (.items _) stack .closeBracket (h.closes _ trivial) rfl
  | .cons h₁ h₂ => by
    have h := Closes.steps (.items done) stack .comma (h₁.closes _ trivial) rfl
    simpa using h.trans h₂.items

theorem Entries.entries {ks entries} {stack : List Open} {done : List (String × Expr)} :
    Entries ks entries → Steps ⟨.key done, stack⟩ (ks ++ [.punct .closeBrace])
      ⟨.operator (.object (done ++ entries)), stack⟩
  | .nil => by simpa using .single rfl
  | .last h => h.last
  | .cons h₁ h₂ => by simpa using h₁.next.trans h₂.entries

theorem Entry.last {ks entry} {stack : List Open} {done : List (String × Expr)} :
    Entry ks entry → Steps ⟨.key done, stack⟩ (ks ++ [.punct .closeBrace])
      ⟨.operator (.object (done ++ [entry])), stack⟩
  | .short hk => .step (step_key hk) (.single rfl)
  | .full hk h =>
    have h := Closes.steps (.entry _ _) stack .closeBrace (h.closes _ trivial) rfl
    .step (step_key hk) (.step rfl h)

theorem Entry.next {ks entry} {stack : List Open} {done : List (String × Expr)} :
    Entry ks entry → Steps ⟨.key done, stack⟩ (ks ++ [.punct .comma])
      ⟨.key (done ++ [entry]), stack⟩
  | .short hk => .step (step_key hk) (.single rfl)
  | .full hk h =>
    have h := Closes.steps (.entry _ _) stack .comma (h.closes _ trivial) rfl
    .step (step_key hk) (.step rfl h)

end
end Stencil.Grammar
