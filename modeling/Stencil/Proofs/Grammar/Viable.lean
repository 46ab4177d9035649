import Stencil.Proofs.Grammar.Complete

namespace Stencil.Grammar

variable {p q : Nat} {ks : List Token.Kind} {e : Expr}

theorem Binary.le_seven {q ks e} : Binary q ks e → q ≤ 7
  | .unary _        => Nat.le_refl 7
  | .tighter h _    => Nat.le_of_lt h
  | .chain _ h _ _ => h ▸ Nat.le_of_lt (Expr.Reading.precedence_lt _)

theorem Binary.mono (h : Binary q ks e) (hp : p ≤ q) : Binary p ks e := by
  induction hp
  case refl => exact h
  case step hi => exact hi (.tighter h.le_seven h)

end Stencil.Grammar

namespace Stencil.Expr.Reading

open Token (Kind)
open Grammar

-- The elements `as` are complete and have a comma after each, so that more may follow.
def Leads {α : Type} (P : List Kind → List α → Prop) (ks : List Kind) (as : List α) : Prop :=
  ∀ ks' as', P ks' as' → P (ks ++ ks') (as ++ as')

namespace Leads

variable {α : Type} {P : List Kind → List α → Prop} {ks ks₁ : List Kind} {as : List α} {a : α}

theorem nil : Leads P [] [] :=
  fun _ _ h => h

theorem snoc (h : Leads P ks as)
    (ha : ∀ ks' as', P ks' as' → P (ks₁ ++ .punct .comma :: ks') (a :: as')) :
    Leads P (ks ++ ks₁ ++ [.punct .comma]) (as ++ [a]) := by
  intro ks' as' hp
  simpa using h _ _ (ha ks' as' hp)

theorem close (h : Leads P ks as) (hn : P [] []) : P ks as := by
  simpa using h [] [] hn

end Leads

-- The tokens `ks` have led to the stack, whose top wants an operand.
inductive Stacked : List Open → List Kind → Prop
  | nil : Stacked [] []
  | unary {stack ks q op} :
    Stacked stack ks → Punct.unary? q = some op → Stacked (.unary op :: stack) (ks ++ [.punct q])
  | binary {stack ks ks₁ lhs q op} :
    Stacked stack ks → Holds op.precedence stack → Binary op.precedence ks₁ lhs →
    Punct.binary? q = some op → Stacked (.binary lhs op :: stack) (ks ++ ks₁ ++ [.punct q])
  | consequent {stack ks ks₁ test} :
    Stacked stack ks → Holds 0 stack → Binary 1 ks₁ test →
    Stacked (.consequent test :: stack) (ks ++ ks₁ ++ [.punct .question])
  | alternate {stack ks ks₁ ks₂ test consequent} :
    Stacked stack ks → Holds 0 stack → Binary 1 ks₁ test → Conditional ks₂ consequent →
    Stacked (.alternate test consequent :: stack)
      (ks ++ ks₁ ++ [.punct .question] ++ ks₂ ++ [.punct .colon])
  | group {stack ks} : Stacked stack ks → Stacked (.group :: stack) (ks ++ [.punct .openParen])
  | index {stack ks ks₁ base} :
    Stacked stack ks → Postfix ks₁ base →
    Stacked (.index base :: stack) (ks ++ ks₁ ++ [.punct .openBracket])
  | arguments {stack ks ks₁ ks₂ callee done} :
    Stacked stack ks → Postfix ks₁ callee → Leads Items ks₂ done →
    Stacked (.arguments callee done :: stack) (ks ++ ks₁ ++ [.punct .openParen] ++ ks₂)
  | items {stack ks ks₁ done} :
    Stacked stack ks → Leads Items ks₁ done →
    Stacked (.items done :: stack) (ks ++ [.punct .openBracket] ++ ks₁)
  | entry {stack ks ks₁ done} {k : Kind} {key} :
    Stacked stack ks → Leads Entries ks₁ done → k.key? = some key →
    Stacked (.entry done key :: stack) (ks ++ [.punct .openBrace] ++ ks₁ ++ [k, .punct .colon])

-- The tokens `ks` consist of those that led to the stack and of a phrase in `P` on top of it.
def Tops (P : List Kind → Prop) (stack : List Open) (ks : List Kind) : Prop :=
  ∃ ks₁ ks₂, Stacked stack ks₁ ∧ P ks₂ ∧ ks₁ ++ ks₂ = ks

namespace Stacked

variable {p q : Nat} {stack : List Open} {ks ks' : List Kind} {e : Expr}

-- Settling keeps the tokens and makes the phrase on top of the stack a larger one.
theorem settle_binary (h : Stacked stack ks) (hh : Holds q stack) (hb : Binary q ks' e)
    (hp : p ≤ q) (hq : 0 < q) :
    ∃ r, p ≤ r ∧ 0 < r ∧ Holds p (settle p e stack).2 ∧
      Tops (Binary r · (settle p e stack).1) (settle p e stack).2 (ks ++ ks') := by
  induction stack generalizing q ks ks' e
  case nil => exact ⟨q, hp, hq, trivial, _, _, h, hb, rfl⟩
  case cons o stack hi =>
    cases o
    case unary => exact hh.elim
    case binary lhs op =>
      by_cases ho : p ≤ op.precedence
      case pos =>
        have .binary h hh' hl hq' := h
        have hc := Binary.chain hq' rfl hl (hb.mono hh)
        have ⟨r, hr, hr', hh, ht⟩ := hi h hh' hc ho (precedence_pos op)
        refine ⟨r, hr, hr', ?_⟩
        simp only [settle, ho, if_true]
        exact ⟨hh, by simpa using ht⟩
      case neg =>
        refine ⟨q, hp, hq, ?_⟩
        simp only [settle, ho, if_false]
        exact ⟨Nat.lt_of_not_le ho, _, _, h, hb, rfl⟩
    all_goals exact ⟨q, hp, hq, trivial, _, _, h, hb, rfl⟩

theorem settle_unary (h : Stacked stack ks) (hu : Unary ks' e) (hp : p ≤ 7) :
    ∃ r, p ≤ r ∧ 0 < r ∧ Holds p (settle p e stack).2 ∧
      Tops (Binary r · (settle p e stack).1) (settle p e stack).2 (ks ++ ks') := by
  induction stack generalizing ks ks' e
  case nil => exact h.settle_binary trivial (.unary hu) hp (by decide)
  case cons o stack hi =>
    cases o
    case unary op =>
      have .unary h hq := h
      simpa [settle] using hi h (.op hq hu)
    case binary op => exact h.settle_binary (precedence_lt op) (.unary hu) hp (by decide)
    all_goals exact h.settle_binary trivial (.unary hu) hp (by decide)

theorem settleAll_conditional (h : Stacked stack ks) (hh : Holds 0 stack) (hc : Conditional ks' e) :
    Tops (Conditional · (settleAll e stack).1) (settleAll e stack).2 (ks ++ ks') := by
  induction stack generalizing ks ks' e
  case nil => exact ⟨_, _, h, hc, rfl⟩
  case cons o stack hi =>
    cases o
    case unary => exact hh.elim
    case binary => exact (Nat.not_lt_zero _ hh).elim
    case alternate =>
      have .alternate h hh ht hc' := h
      simpa [settleAll] using hi h hh (.cond ht hc' hc)
    all_goals exact ⟨_, _, h, hc, rfl⟩

end Stacked

theorem settleAll_eq_settleAll_settle (e : Expr) (stack : List Open) :
    settleAll e stack = settleAll (settle 0 e stack).1 (settle 0 e stack).2 := by
  induction stack generalizing e
  case nil => rfl
  case cons o stack hi =>
    cases o
    case unary => exact hi _
    case binary => exact hi _
    all_goals rfl

theorem Stacked.settleAll_unary {stack ks ks' e} (h : Stacked stack ks) (hu : Unary ks' e) :
    Tops (Conditional · (settleAll e stack).1) (settleAll e stack).2 (ks ++ ks') := by
  have ⟨r, _, hr, hh, ks₁, ks₂, h, hb, hk⟩ := h.settle_unary hu (Nat.zero_le 7)
  rw [settleAll_eq_settleAll_settle, ←hk]
  exact h.settleAll_conditional hh (.plain (hb.mono hr))

-- What the tokens `ks` have led to.
inductive Viable : Reading → List Kind → Prop
  | operand {stack ks} : Stacked stack ks → Viable ⟨.operand, stack⟩ ks
  | operator {stack ks e} : Tops (Postfix · e) stack ks → Viable ⟨.operator e, stack⟩ ks
  | property {stack ks e} :
    Tops (Postfix · e) stack ks → Viable ⟨.property e, stack⟩ (ks ++ [.punct .dot])
  | key {stack ks ks₁ done} :
    Stacked stack ks → Leads Entries ks₁ done →
    Viable ⟨.key done, stack⟩ (ks ++ [.punct .openBrace] ++ ks₁)
  | afterKey {stack ks ks₁ done} {k : Kind} {key} :
    Stacked stack ks → Leads Entries ks₁ done → k.key? = some key →
    Viable ⟨.afterKey done key, stack⟩ (ks ++ [.punct .openBrace] ++ ks₁ ++ [k])

namespace Viable

variable {stack : List Open} {ks ks' : List Kind} {k : Kind} {e : Expr} {r r' : Reading}

theorem start : Viable .start [] :=
  .operand .nil

theorem of_primary (h : Stacked stack ks) (hp : Primary ks' e) :
    Viable ⟨.operator e, stack⟩ (ks ++ ks') :=
  .operator ⟨_, _, h, .plain hp, rfl⟩

theorem stepOperand (h : Stacked stack ks) (hs : stepOperand stack k = .ok r) :
    Viable r (ks ++ [k]) := by
  cases k
  case number => cases hs; exact of_primary h .number
  case string => cases hs; exact of_primary h .string
  case name => cases hs; exact of_primary h .name
  case punct q =>
    simp only [Reading.stepOperand] at hs
    split at hs
    · cases hs; exact .operand h.group
    · cases hs; exact .operand (by simpa using h.items .nil)
    · cases hs; simpa using Viable.key h .nil
    · cases hs
      have .arguments h hc hl := h
      exact .operator ⟨_, _, h, .call hc (hl.close .nil), by simp⟩
    · cases hs
      have .items h hl := h
      exact .operator ⟨_, _, h, .plain (.array (hl.close .nil)), by simp⟩
    · split at hs <;> cases hs
      exact .operand (h.unary ‹_›)

theorem stepEnd (h : Stacked stack ks) (hc : Conditional ks' e) (hs : stepEnd e stack k = .ok r) :
    Viable r (ks ++ ks' ++ [k]) := by
  simp only [Reading.stepEnd] at hs
  split at hs <;> cases hs
  · have .consequent h hh ht := h
    exact .operand (by simpa using h.alternate hh ht hc)
  · have .arguments h hp hl := h
    have hl := hl.snoc fun _ _ => .cons hc
    exact .operand (by simpa using h.arguments hp hl)
  · have .items h hl := h
    have hl := hl.snoc fun _ _ => .cons hc
    exact .operand (by simpa using h.items hl)
  · have .entry h hl hk := h
    have hl := hl.snoc fun _ _ => .cons (.full hk hc)
    simpa using Viable.key h hl
  · have .group h := h
    exact .operator ⟨_, _, h, .plain (.group hc), by simp⟩
  · have .arguments h hp hl := h
    exact .operator ⟨_, _, h, .call hp (hl _ _ (.last hc)), by simp⟩
  · have .index h hp := h
    exact .operator ⟨_, _, h, .index hp hc, by simp⟩
  · have .items h hl := h
    exact .operator ⟨_, _, h, .plain (.array (hl _ _ (.last hc))), by simp⟩
  · have .entry h hl hk := h
    exact .operator ⟨_, _, h, .plain (.object (hl _ _ (.last (.full hk hc)))), by simp⟩

theorem stepOperator (h : Tops (Postfix · e) stack ks) (hs : stepOperator e stack k = .ok r) :
    Viable r (ks ++ [k]) := by
  obtain ⟨ks₁, ks₂, h, hp, rfl⟩ := h
  have hend (hs : Reading.stepEnd (settleAll e stack).1 (settleAll e stack).2 k = .ok r) :
      Viable r (ks₁ ++ ks₂ ++ [k]) := by
    obtain ⟨_, _, h, hc, hk⟩ := h.settleAll_unary (.plain hp)
    exact hk ▸ stepEnd h hc hs
  simp only [Reading.stepOperator] at hs
  split at hs
  · cases hs; exact .property ⟨_, _, h, hp, rfl⟩
  · cases hs; exact .operand (h.index hp)
  · cases hs; exact .operand (by simpa using h.arguments hp .nil)
  · cases hs
    obtain ⟨_, _, hr, hh, _, _, h, hb, hk⟩ := h.settle_unary (.plain hp) (Nat.zero_le 7)
    exact hk ▸ .operand (h.consequent hh (hb.mono hr))
  · split at hs
    · cases hs
      have hp' := Nat.le_of_lt (precedence_lt ‹_›)
      obtain ⟨_, hr, _, hh, _, _, h, hb, hk⟩ := h.settle_unary (.plain hp) hp'
      exact hk ▸ .operand (h.binary hh (hb.mono hr) ‹_›)
    · exact hend hs
  · exact hend hs

theorem stepKey {done} (h : Stacked stack ks) (hl : Leads Entries ks' done)
    (hs : stepKey done stack k = .ok r) :
    Viable r (ks ++ [.punct .openBrace] ++ ks' ++ [k]) := by
  simp only [Reading.stepKey] at hs
  split at hs <;> cases hs
  · exact .afterKey h hl rfl
  · exact .afterKey h hl rfl
  · exact .afterKey h hl rfl
  · exact .operator ⟨_, _, h, .plain (.object (hl.close .nil)), by simp⟩

theorem stepAfterKey {done key} {k' : Kind} (h : Stacked stack ks) (hl : Leads Entries ks' done)
    (hk : k'.key? = some key) (hs : stepAfterKey done key stack k = .ok r) :
    Viable r (ks ++ [.punct .openBrace] ++ ks' ++ [k'] ++ [k]) := by
  simp only [Reading.stepAfterKey] at hs
  split at hs <;> cases hs
  · exact .operand (by simpa using h.entry hl hk)
  · have hl := hl.snoc fun _ _ => .cons (.short hk)
    simpa using Viable.key h hl
  · exact .operator ⟨_, _, h, .plain (.object (hl _ _ (.last (.short hk)))), by simp⟩

theorem step (h : Viable r ks) (hs : r.step k = .ok r') : Viable r' (ks ++ [k]) := by
  cases h
  case operand h => exact stepOperand h hs
  case operator h => exact stepOperator h hs
  case key h hl => exact stepKey h hl hs
  case afterKey h hl hk => exact stepAfterKey h hl hk hs
  case property h =>
    have ⟨_, _, h, hp, hk⟩ := h
    simp only [Reading.step] at hs
    split at hs <;> cases hs
    exact .operator ⟨_, _, h, .member hp, by simp [←hk]⟩

theorem steps (h : Viable r ks) (hs : Steps r ks' r') : Viable r' (ks ++ ks') := by
  induction hs generalizing ks
  case refl => simpa using h
  case step hs _ hi => simpa using hi (h.step hs)

theorem finish (h : Viable r ks) (hf : r.finish = .ok e) : Conditional ks e := by
  cases h <;> simp only [Reading.finish, reduceCtorEq] at hf
  case operator stack e' h =>
    have ⟨_, _, h, hp, hk⟩ := h
    have ⟨_, _, h, hc, hk'⟩ := h.settleAll_unary (.plain hp)
    cases ha : settleAll e' stack
    case mk e' stack' =>
      rw [ha] at h hc hf
      cases stack' <;> simp at hf
      cases h
      simpa [←hk, ←hk', ←hf] using hc

end Viable

theorem steps_finish_iff_conditional {ks e} :
    (∃ r, Steps .start ks r ∧ r.finish = .ok e) ↔ Conditional ks e := by
  constructor
  case mp =>
    intro ⟨r, hs, hf⟩
    exact (Viable.start.steps hs).finish hf
  case mpr =>
    intro h
    have ⟨e', stack, hs, ha⟩ := h.closes [] trivial
    exact ⟨_, hs, by simp [finish, ha, settleAll]⟩

theorem run_start_eq_ok_iff (stop : Nat) (ts : List Token) (e : Expr) :
    run stop ts .start = .ok e ↔ Conditional (ts.map Token.kind) e :=
  run_eq_ok_iff_steps.trans steps_finish_iff_conditional

-- The reader is a function, so a phrase that it reads as its tree has no other tree.
theorem reads_exactly_conditionals (stop : Nat) (ts : List Token) :
    (∀ e, run stop ts .start = .ok e ↔ Conditional (ts.map Token.kind) e) ∧
      ∀ e e', Conditional (ts.map Token.kind) e → Conditional (ts.map Token.kind) e' → e = e' := by
  have hr := run_start_eq_ok_iff stop ts
  refine ⟨hr, fun e e' h h' => ?_⟩
  have he : Except.ok e = .ok e' := ((hr e).mpr h).symm.trans ((hr e').mpr h')
  exact Except.ok.inj he

end Stencil.Expr.Reading
